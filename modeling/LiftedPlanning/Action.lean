import LiftedPlanning.Expr.Substitution
import LiftedPlanning.Fluent

/-!
# Actions

An action schema has parameters, preconditions that must all hold, and effects that change fluent
instances. An action applied to objects is an action instance; a ground action takes no arguments.
-/

namespace LiftedPlanning

inductive EffectKind where
  | assign
  | increase
  | decrease
deriving DecidableEq

/-- Changes the instance `fluent(args)` if the condition holds. -/
structure Effect where
  fluent : String
  args : List Expr
  kind : EffectKind
  value : Expr
  condition : Expr
deriving DecidableEq

namespace Effect

def always (fluent : String) (args : List Expr) (kind : EffectKind) (value : Expr) : Effect :=
  ⟨fluent, args, kind, value, .bool true⟩

def when (e : Effect) (condition : Expr) : Effect :=
  ⟨e.fluent, e.args, e.kind, e.value, condition⟩

/-- Whether the effect has a condition other than `true`. -/
def isConditional (e : Effect) : Bool := e.condition ≠ .bool true

def target (e : Effect) : Expr := .fluent e.fluent e.args

def kindName : EffectKind → String
  | .assign => "assign"
  | .increase => "increase"
  | .decrease => "decrease"

def kindTag : EffectKind → String
  | .assign => "Assign"
  | .increase => "Increase"
  | .decrease => "Decrease"

/-- How an effect is shown: the condition only if there is one. -/
def text (e : Effect) : String :=
  let change := Expr.list (kindName e.kind) [e.target.text, e.value.text]
  if e.isConditional then Expr.list "when" [e.condition.text, change] else change

def json (e : Effect) : Json :=
  .ofFields [("fluent", .ofString e.fluent), ("args", .array (e.args.map Expr.json)),
    ("kind", .ofString (kindTag e.kind)), ("value", e.value.json),
    ("condition", e.condition.json)]

end Effect

structure Action where
  name : String
  parameters : List Parameter
  preconditions : List Expr
  effects : List Effect
deriving DecidableEq

namespace Action

/-- Every expression of the action: the preconditions, then of each effect the arguments, the
value and the condition. -/
def expressions (a : Action) : List Expr :=
  a.preconditions ++ a.effects.flatMap fun e => e.args ++ [e.value, e.condition]

/-- Whether the action has no parameter, and no expression of it a variable or a quantifier. -/
def isGround (a : Action) : Bool :=
  a.parameters.isEmpty &&
    a.expressions.all fun e => !e.hasQuantifier && e.freeVariables.isEmpty

def text (a : Action) : String :=
  "(:action " ++ a.name ++ " :parameters ("
    ++ " ".intercalate (a.parameters.map Parameter.text) ++ ")\n"
    ++ "  :precondition (and\n"
    ++ String.join (a.preconditions.map fun e => "    " ++ e.text ++ "\n")
    ++ "  )\n  :effect (and\n"
    ++ String.join (a.effects.map fun e => "    " ++ e.text ++ "\n")
    ++ "  ))"

def json (a : Action) : Json :=
  .ofFields [("name", .ofString a.name), ("parameters", .array (a.parameters.map Parameter.json)),
    ("preconditions", .array (a.preconditions.map Expr.json)),
    ("effects", .array (a.effects.map Effect.json))]

end Action

structure ActionInstance where
  action : String
  args : List String
deriving DecidableEq

namespace ActionInstance

def ground (action : String) : ActionInstance := ⟨action, []⟩

def text (i : ActionInstance) : String :=
  i.action ++ "(" ++ ", ".intercalate i.args ++ ")"

def json (i : ActionInstance) : Json :=
  .ofFields [("action", .ofString i.action), ("args", .ofStrings i.args)]

/-- By action name, then by arguments from the left, a list before its continuations. -/
def order (a b : ActionInstance) : Ordering :=
  (compare a.action b.action).then (compare a.args b.args)

end ActionInstance

end LiftedPlanning
