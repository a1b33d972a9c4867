import LiftedPlanning.Problem.Basic
import LiftedPlanning.Transition

/-!
# Successors

The transition function of a problem: from a state and an action instance to the next state.
-/

namespace LiftedPlanning.Problem

/-- The state after an action instance, or `none` if a precondition does not hold. The action must
be declared and the arguments must fit its parameters. -/
def successor (P : Problem) (s : State) (i : ActionInstance) :
    Except ModelError (Option State) := do
  let a ← P.action i.action
  P.checkArguments a i.args
  P.step s (.ofArgs a.parameters i.args) a

def firstUnreachedGoal (P : Problem) (s : State) : Except ModelError (Option Expr) :=
  P.firstFalse s .empty P.goals

end LiftedPlanning.Problem
