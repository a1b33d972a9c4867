import LiftedPlanning.Problem.Basic

/-!
# Features of a problem

The kind of a problem, read off its declarations. Conditions are searched to any depth; the
values of effects and the expressions of metrics are no conditions.
-/

namespace LiftedPlanning

def Expr.feature? : Expr → Option Feature
  | .not _ => some .negativeConditions
  | .junction .or _ => some .disjunctiveConditions
  | .binary .implies _ _ => some .disjunctiveConditions
  | .binary .iff _ _ => some .disjunctiveConditions
  | .binary .equals _ _ => some .equalities
  | .quantified .universal _ _ => some .universalConditions
  | .quantified .existential _ _ => some .existentialConditions
  | _ => none

def Expr.features (e : Expr) : List Feature := e.subexpressions.filterMap Expr.feature?

/-- The features that an effect uses, its condition apart. -/
def Effect.features (e : Effect) : List Feature :=
  (if e.isConditional then [.conditionalEffects] else []) ++
    match e.kind with
    | .assign => []
    | .increase => [.increaseEffects]
    | .decrease => [.decreaseEffects]

namespace Problem

/-- Preconditions, conditions of effects, and goals. -/
def conditions (P : Problem) : List Expr :=
  (P.actions.flatMap fun a => a.preconditions ++ a.effects.map Effect.condition) ++ P.goals

def effects (P : Problem) : List Effect := P.actions.flatMap Action.effects

def declarationFeatures (P : Problem) : List Feature :=
  (if P.types.isEmpty then [] else [.flatTyping]) ++
  (if P.types.isHierarchical then [.hierarchicalTyping] else []) ++
  (if P.fluents.any fun f => f.valueType = .numeric then [.numericFluents] else [])

def kind (P : Problem) : ProblemKind :=
  .ofList (.actionBased :: (P.declarationFeatures ++ P.conditions.flatMap Expr.features ++
    P.effects.flatMap Effect.features ++ P.metrics.map QualityMetric.feature))

end Problem

end LiftedPlanning
