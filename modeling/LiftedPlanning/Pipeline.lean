import LiftedPlanning.Registry

/-!
# The planning pipeline

From a problem to a plan that has been checked twice: the problem is grounded, a plan is found for
the ground problem and mapped back, and both plans are validated, each against its own problem.
Every engine is picked by the kind of the problem it has to handle.
-/

namespace LiftedPlanning

/-- A plan for the ground problem, the plan for the lifted problem it stands for, and what the
validators say of both. -/
structure CheckedPlan where
  ground : Plan
  lifted : Plan
  groundCheck : ValidationResult
  liftedCheck : ValidationResult
deriving DecidableEq

/-- How the search ended, and the plan if it found one. -/
structure PipelineResult where
  status : PlanStatus
  plan : Option CheckedPlan
deriving DecidableEq

namespace Registry

/-- Maps a plan back and validates it on both levels. -/
def check (r : Registry) (P : Problem) (compiled : CompilerResult) (plan : Plan) :
    Except EngineError CheckedPlan := do
  let lifted ← (compiled.mapBackPlan plan).mapError .grounding
  let groundValidator ← r.validatorFor compiled.problem.kind
  let groundCheck ← (groundValidator.validate compiled.problem plan).mapError .validation
  let liftedValidator ← r.validatorFor P.kind
  let liftedCheck ← (liftedValidator.validate P lifted).mapError .validation
  return ⟨plan, lifted, groundCheck, liftedCheck⟩

def run (r : Registry) (P : Problem) : Except EngineError PipelineResult := do
  let compiler ← r.compilerFor P.kind .grounding
  let compiled ← (compiler.compile P .grounding).mapError .grounding
  let planner ← r.plannerFor compiled.problem.kind
  let result ← (planner.solve compiled.problem).mapError .planning
  match result.plan with
  | none => return ⟨result.status, none⟩
  | some plan => return ⟨result.status, some (← r.check P compiled plan)⟩

end Registry

end LiftedPlanning
