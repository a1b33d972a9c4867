import LiftedPlanning.Options
import LiftedPlanning.Plan
import LiftedPlanning.Problem.Successor

/-!
# Plan validation

A plan is validated by running it from the initial state: every step must be applicable and all
goals must hold at the end. Along the way the costs of the steps are summed up, one sum for each
metric. A check that fails is part of the result; what is structurally wrong with a plan or a
problem (an unknown action, an ill-typed argument, an expression without a value) is an error.
-/

namespace LiftedPlanning

inductive Verdict where
  | valid
  | invalid
  | unknown
deriving DecidableEq

namespace Verdict

def name : Verdict → String
  | valid => "VALID"
  | invalid => "INVALID"
  | unknown => "UNKNOWN"

def tag : Verdict → String
  | valid => "Valid"
  | invalid => "Invalid"
  | unknown => "Unknown"

end Verdict

/-- Why a plan was not found valid. Steps are counted from zero. -/
inductive FailedCheck where
  | inapplicable (step : Nat) (action : ActionInstance) (condition : Expr)
  | goalNotReached (goal : Expr)
  | metricUnsupported
deriving DecidableEq

namespace FailedCheck

def text : FailedCheck → String
  | inapplicable step action condition =>
    "step " ++ toString step ++ ": precondition " ++ condition.text ++ " of " ++ action.text
      ++ " does not hold"
  | goalNotReached goal => "goal " ++ goal.text ++ " is not reached"
  | metricUnsupported => "quality metrics are not supported"

def json : FailedCheck → Json
  | inapplicable step action condition =>
    .ofField "InapplicablePrecondition" (.ofFields [("step", .ofNat step),
      ("action", action.json), ("condition", condition.json)])
  | goalNotReached goal => .ofField "GoalNotReached" (.ofField "goal" goal.json)
  | metricUnsupported => .ofString "MetricUnsupported"

end FailedCheck

/-- The outcome of a validation. `traceLength` counts the steps that were made. -/
structure ValidationResult where
  verdict : Verdict
  engine : String
  reason : Option FailedCheck
  traceLength : Nat
  metrics : List (QualityMetric × Value)
deriving DecidableEq

namespace ValidationResult

def isValid (r : ValidationResult) : Bool := r.verdict = .valid

def json (r : ValidationResult) : Json :=
  .ofFields [("status", .ofString r.verdict.tag), ("engine_name", .ofString r.engine),
    ("reason", .ofOption FailedCheck.json r.reason), ("trace_length", .ofNat r.traceLength),
    ("metric_evaluations", .array (r.metrics.map fun m =>
      .ofFields [("metric", m.1.json), ("value", m.2.json)]))]

end ValidationResult

inductive ValidationError where
  | missingActionCost (action : String)
  | cancelled
  | model (e : ModelError)
deriving DecidableEq

def ValidationError.message : ValidationError → String
  | missingActionCost action => "no cost is defined for action " ++ action
  | cancelled => "validation was cancelled"
  | model e => e.message

structure PlanValidator where
  options : ValidatorOptions := {}
  cancelled : Bool := false

/-- A run of a plan: the state reached, and the costs so far, one for each metric. -/
structure Run where
  state : State
  costs : List Rat

/-- How a run ends: all steps are made, or one of them is not applicable. -/
inductive RunEnd where
  | finished (run : Run)
  | blocked (step : Nat) (action : ActionInstance) (condition : Expr)

namespace PlanValidator

def name (v : PlanValidator) : String :=
  if v.options.evaluateMetrics then "sequential-plan-validator-metrics"
  else "sequential-plan-validator"

/-- Without metric evaluation, problems with metrics are not handled. -/
def capabilities (v : PlanValidator) : Capabilities :=
  .ofKind (if v.options.evaluateMetrics then .all
    else ProblemKind.all.without [.planLength, .actionsCost, .finalValue])

/-! ## Running a plan -/

/-- Adds the cost of an action to the sum of one metric, in the state before the action. -/
def addCost (P : Problem) (s : State) (b : Binding) (a : Action) (m : QualityMetric) (sum : Rat) :
    Except ValidationError Rat :=
  match m with
  | .actionCosts costs default =>
    match (QualityMetric.actionCosts costs default).actionCost a.name with
    | some cost => (do
        let q ← Vocabulary.asNumber cost (← P.evaluate s b cost)
        return sum + q : Except ModelError Rat).mapError .model
    | none => .error (.missingActionCost a.name)
  | _ => .ok sum

def addCosts (P : Problem) (s : State) (b : Binding) (a : Action) (sums : List Rat) :
    Except ValidationError (List Rat) :=
  (P.metrics.zip sums).mapM fun x => addCost P s b a x.1 x.2

/-- Runs the steps of a plan, the first of which is step number `k`. -/
def run (v : PlanValidator) (P : Problem) (k : Nat) (r : Run) :
    Plan → Except ValidationError RunEnd
  | [] => .ok (.finished r)
  | i :: rest =>
    if v.cancelled then .error .cancelled
    else do
      let a ← (P.action i.action).mapError .model
      (P.checkArguments a i.args).mapError .model
      let b := Binding.ofArgs a.parameters i.args
      match ← (P.firstFalse r.state b a.preconditions).mapError .model with
      | some condition => return .blocked k i condition
      | none =>
        let costs ← addCosts P r.state b a r.costs
        let state ← (P.apply r.state b a).mapError .model
        v.run P (k + 1) ⟨state, costs⟩ rest

/-! ## Judging a run -/

def metricValue (P : Problem) (s : State) (length : Nat) (m : QualityMetric) (cost : Rat) :
    Except ModelError Value :=
  match m with
  | .planLength => .ok (.number length)
  | .actionCosts .. => .ok (.number cost)
  | .minimizeFinal e => P.evaluate s .empty e
  | .maximizeFinal e => P.evaluate s .empty e

def metricValues (P : Problem) (r : Run) (length : Nat) :
    Except ModelError (List (QualityMetric × Value)) :=
  (P.metrics.zip r.costs).mapM fun x => return (x.1, ← metricValue P r.state length x.1 x.2)

/-- Judges a run of all steps: the goals must hold. -/
def judge (v : PlanValidator) (P : Problem) (r : Run) (length : Nat) :
    Except ModelError ValidationResult := do
  match ← P.firstUnreachedGoal r.state with
  | some goal => return ⟨.invalid, v.name, some (.goalNotReached goal), length, []⟩
  | none => return ⟨.valid, v.name, none, length, ← metricValues P r length⟩

def simulate (v : PlanValidator) (P : Problem) (p : Plan) :
    Except ValidationError ValidationResult := do
  match ← v.run P 0 ⟨P.initialState, P.metrics.map fun _ => 0⟩ p with
  | .blocked k i condition =>
    return ⟨.invalid, v.name, some (.inapplicable k i condition), k, []⟩
  | .finished r => (v.judge P r p.length).mapError .model

/-- Validates a plan. A problem with metrics needs a validator that evaluates them. -/
def validate (v : PlanValidator) (P : Problem) (p : Plan) :
    Except ValidationError ValidationResult :=
  if !P.metrics.isEmpty && !v.options.evaluateMetrics then
    .ok ⟨.unknown, v.name, some .metricUnsupported, 0, []⟩
  else v.simulate P p

end PlanValidator

end LiftedPlanning
