import LiftedPlanning.Expr.Basic
import LiftedPlanning.Kind
import LiftedPlanning.SortedMap

/-!
# Quality metrics

What makes one plan better than another. A problem may have several metrics; each is evaluated on
its own.
-/

namespace LiftedPlanning

/-- An objective for plans. Cost expressions may mention the parameters of their action. -/
inductive QualityMetric where
  | planLength
  | actionCosts (costs : SortedMap String Expr) (default : Option Expr)
  | minimizeFinal (e : Expr)
  | maximizeFinal (e : Expr)
deriving DecidableEq

namespace QualityMetric

/-- The cost expression of an action: its own entry, or else the default. -/
def actionCost (m : QualityMetric) (action : String) : Option Expr :=
  match m with
  | actionCosts costs default => (costs.get? action).or default
  | _ => none

def feature : QualityMetric → Feature
  | planLength => .planLength
  | actionCosts .. => .actionsCost
  | minimizeFinal _ => .finalValue
  | maximizeFinal _ => .finalValue

def text : QualityMetric → String
  | planLength => "minimize plan-length"
  | actionCosts costs default =>
    "minimize action-costs \x7b"
      ++ ", ".intercalate (costs.entries.map fun e => e.1 ++ ": " ++ e.2.text)
      ++ (match default with
        | some d => ", default: " ++ d.text
        | none => "")
      ++ "\x7d"
  | minimizeFinal e => "minimize " ++ e.text
  | maximizeFinal e => "maximize " ++ e.text

def json : QualityMetric → Json
  | planLength => .ofString "MinimizeSequentialPlanLength"
  | actionCosts costs default =>
    .ofField "MinimizeActionCosts" (.ofFields [
      ("costs", .ofFields (costs.entries.map fun e => (e.1, e.2.json))),
      ("default", .ofOption Expr.json default)])
  | minimizeFinal e => .ofField "MinimizeExpressionOnFinalState" e.json
  | maximizeFinal e => .ofField "MaximizeExpressionOnFinalState" e.json

end QualityMetric

end LiftedPlanning
