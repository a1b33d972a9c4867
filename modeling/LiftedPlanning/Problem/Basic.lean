import LiftedPlanning.Metric
import LiftedPlanning.State

/-!
# Problems

A planning problem: a vocabulary with initial values, actions, goals and quality metrics. Problems
are built declaration by declaration; each is checked against what was declared before, and one
that does not fit is refused. Only metrics are taken as they come.
-/

namespace LiftedPlanning

/-- A planning problem. Lists are in order of declaration. -/
structure Problem extends Vocabulary where
  name : String
  initialValues : SortedMap FluentInstance Value
  actions : List Action
  goals : List Expr
  metrics : List QualityMetric
deriving DecidableEq

namespace Problem

def new (name : String) : Problem := ⟨.empty, name, .empty, [], [], []⟩

/-- The vocabulary and the initial values under a new name, without actions, goals and metrics. -/
def skeleton (P : Problem) (name : String) : Problem :=
  ⟨P.toVocabulary, name, P.initialValues, [], [], []⟩

/-! ## Declarations -/

def addType (P : Problem) (name : String) (parent : Option String) : Except ModelError Problem := do
  let types ← P.types.declare name parent
  return { P with types := types }

def addObject (P : Problem) (name type : String) : Except ModelError Problem :=
  if !P.types.contains type then .error (.unknownType type)
  else if P.objects.any fun o => o.name = name then .error (.duplicateObject name)
  else .ok { P with objects := P.objects ++ [⟨name, type⟩] }

/-- Declares objects in order, up to the first that is refused; those before it stay. -/
def addObjects (P : Problem) : List String → String → Problem × Option ModelError
  | [], _ => (P, none)
  | n :: ns, type =>
    match P.addObject n type with
    | .ok P => P.addObjects ns type
    | .error e => (P, some e)

def addFluent (P : Problem) (f : Fluent) : Except ModelError Problem := do
  if P.fluents.any fun g => g.name = f.name then .error (.duplicateFluent f.name)
  else
    P.checkParameters f.signature
    match f.default.filter fun v => !f.accepts v with
    | some v => .error (.wrongValue f.name "default" f.valueType v)
    | none => return { P with fluents := P.fluents ++ [f] }

def setInitialValue (P : Problem) (i : FluentInstance) (v : Value) : Except ModelError Problem := do
  P.checkInstance i
  let f ← P.fluent i.fluent
  if f.accepts v then return { P with initialValues := P.initialValues.insert i v }
  else .error (.wrongValue i.text "value" f.valueType v)

def setTrue (P : Problem) (fluent : String) (args : List String) : Except ModelError Problem :=
  P.setInitialValue ⟨fluent, args⟩ (.bool true)

def addAction (P : Problem) (a : Action) : Except ModelError Problem := do
  if P.actions.any fun b => b.name = a.name then .error (.duplicateAction a.name)
  else
    P.checkAction a
    return { P with actions := P.actions ++ [a] }

def addGoal (P : Problem) (goal : Expr) : Except ModelError Problem := do
  P.checkExpr .empty goal
  return { P with goals := P.goals ++ [goal] }

def addMetric (P : Problem) (m : QualityMetric) : Problem := { P with metrics := P.metrics ++ [m] }

def clearMetrics (P : Problem) : Problem := { P with metrics := [] }

/-! ## Look-ups -/

def action (P : Problem) (name : String) : Except ModelError Action :=
  match P.actions.find? fun a => a.name = name with
  | some a => .ok a
  | none => .error (.unknownAction name)

def implicitValue (P : Problem) (fluent : String) : Option Value :=
  (P.fluents.find? fun f => f.name = fluent).bind Fluent.implicitValue

/-- The state that the initial values describe: those that are not implicit anyway. -/
def initialState (P : Problem) : State :=
  P.initialValues.filter fun i v => P.implicitValue i.fluent ≠ some v

def writes (P : Problem) (fluent : String) : Bool :=
  P.actions.any fun a => a.effects.any fun e => e.fluent = fluent

def staticFluents (P : Problem) : List Fluent := P.fluents.filter fun f => !P.writes f.name

/-- Whether a fluent is declared and no action changes it. -/
def isStatic (P : Problem) (fluent : String) : Bool :=
  P.staticFluents.any fun f => f.name = fluent

end Problem

end LiftedPlanning
