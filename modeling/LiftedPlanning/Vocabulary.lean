import LiftedPlanning.Action
import LiftedPlanning.TypeHierarchy

/-!
# Vocabularies

The types, objects and fluents that expressions speak about. Expressions are checked and evaluated
against a vocabulary alone, so a problem and its grounding, which share theirs, read every
expression alike.

A check follows the scope of variables: a quantifier declares its variables on top of those
around it, and the innermost declaration counts.
-/

namespace LiftedPlanning

/-- Types, objects and fluents, the latter two in order of declaration. -/
structure Vocabulary where
  types : TypeHierarchy
  objects : List Object
  fluents : List Fluent
deriving DecidableEq

abbrev Scope := String → Option String

namespace Scope

def empty : Scope := fun _ => none

/-- Declares one more variable, on top of what its name may have meant. -/
def declare (s : Scope) (p : Parameter) : Scope := fun y => if y = p.name then some p.type else s y

/-- Declares parameters in order; of a repeated name the last counts. -/
def declareAll (s : Scope) (params : List Parameter) : Scope := params.foldl declare s

def ofParams (params : List Parameter) : Scope := empty.declareAll params

def typeOf (s : Scope) (x : String) : Except ModelError String :=
  match s x with
  | some t => .ok t
  | none => .error (.unboundVariable x)

end Scope

namespace Vocabulary

def empty : Vocabulary := ⟨.empty, [], []⟩

/-! ## Look-ups -/

def object (V : Vocabulary) (name : String) : Except ModelError Object :=
  match V.objects.find? fun o => o.name = name with
  | some o => .ok o
  | none => .error (.unknownObject name)

def fluent (V : Vocabulary) (name : String) : Except ModelError Fluent :=
  match V.fluents.find? fun f => f.name = name with
  | some f => .ok f
  | none => .error (.unknownFluent name)

/-! ## Arguments -/

def checkParameters (V : Vocabulary) (params : List Parameter) : Except ModelError Unit :=
  match params.find? fun p => !V.types.contains p.type with
  | some p => .error (.unknownType p.type)
  | none => .ok ()

def checkType (V : Vocabulary) (item arg type : String) (p : Parameter) : Except ModelError Unit :=
  if V.types.isCompatible type p.type then .ok ()
  else .error (.typeMismatch item arg p.type type)

def checkArg (V : Vocabulary) (item : String) (p : Parameter) (arg : String) :
    Except ModelError Unit := do
  let o ← V.object arg
  V.checkType item o.name o.type p

/-- Checks that the arguments of `item` have the number and the types of its parameters. -/
def checkArgs (V : Vocabulary) (item : String) (params : List Parameter) (args : List String) :
    Except ModelError Unit :=
  if params.length ≠ args.length then .error (.arityMismatch item params.length args.length)
  else (params.zip args).forM fun x => V.checkArg item x.1 x.2

/-- Checks that an instance has a declared fluent and arguments that fit its signature. -/
def checkInstance (V : Vocabulary) (i : FluentInstance) : Except ModelError Unit := do
  let f ← V.fluent i.fluent
  V.checkArgs i.text f.signature i.args

def checkArguments (V : Vocabulary) (a : Action) (args : List String) : Except ModelError Unit :=
  V.checkArgs a.name a.parameters args

/-! ## Expressions -/

/-- An argument of a fluent must be a variable or an object; gives its name, as it is shown, and
its type. -/
def argType (V : Vocabulary) (scope : Scope) (arg : Expr) : Except ModelError (String × String) :=
  match arg with
  | .var x => do return ("?" ++ x, ← scope.typeOf x)
  | .const (.object o) => do return (o, (← V.object o).type)
  | e => .error (.notObject e)

def checkExprArg (V : Vocabulary) (scope : Scope) (item : Expr) (p : Parameter) (arg : Expr) :
    Except ModelError Unit := do
  let (shown, type) ← V.argType scope arg
  V.checkType item.text shown type p

mutual

/-- Checks that fluents are declared and applied to arguments that fit, that objects are declared,
that variables are in scope and that quantified types are declared. -/
def checkExpr (V : Vocabulary) (scope : Scope) : Expr → Except ModelError Unit
  | .const (.object o) => do
    let _ ← V.object o
    return ()
  | .const _ => .ok ()
  | .var x => do
    let _ ← scope.typeOf x
    return ()
  | .fluent f args => do
    let fl ← V.fluent f
    if args.length ≠ fl.arity then .error (.arityMismatch f fl.arity args.length)
    else (fl.signature.zip args).forM fun x => V.checkExprArg scope (.fluent f args) x.1 x.2
  | .not e => V.checkExpr scope e
  | .junction _ es => V.checkExprs scope es
  | .series _ es => V.checkExprs scope es
  | .binary _ a b => do
    V.checkExpr scope a
    V.checkExpr scope b
  | .quantified _ vars body => do
    V.checkParameters vars
    V.checkExpr (scope.declareAll vars) body

def checkExprs (V : Vocabulary) (scope : Scope) : List Expr → Except ModelError Unit
  | [] => .ok ()
  | e :: es => do
    V.checkExpr scope e
    V.checkExprs scope es

end

theorem checkExprs_eq (V : Vocabulary) (scope : Scope) (es : List Expr) :
    V.checkExprs scope es = es.forM (V.checkExpr scope) := by
  induction es with
  | nil => rfl
  | cons e es ih => simp [checkExprs, List.forM_cons, ih]

/-- Checks an effect: its target, its condition, then its value. -/
def checkEffect (V : Vocabulary) (scope : Scope) (e : Effect) : Except ModelError Unit := do
  V.checkExpr scope e.target
  V.checkExpr scope e.condition
  V.checkExpr scope e.value

/-- Checks an action: its parameters, its preconditions, then its effects. -/
def checkAction (V : Vocabulary) (a : Action) : Except ModelError Unit := do
  V.checkParameters a.parameters
  a.preconditions.forM (V.checkExpr (.ofParams a.parameters))
  a.effects.forM (V.checkEffect (.ofParams a.parameters))

end Vocabulary

end LiftedPlanning
