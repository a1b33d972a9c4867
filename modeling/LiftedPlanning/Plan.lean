import LiftedPlanning.Action
import LiftedPlanning.Json.Reader

/-!
# Plans

A plan is a sequence of action instances. Its JSON text can be read back.
-/

namespace LiftedPlanning

abbrev Plan := List ActionInstance

namespace Plan

/-- Maps every step, in order, up to the first that cannot be mapped. -/
def replaceSteps {ε : Type} (f : ActionInstance → Except ε ActionInstance) (p : Plan) :
    Except ε Plan :=
  p.mapM f

def text (p : Plan) : String :=
  "SequentialPlan:\n" ++ String.join (p.map fun i => "    " ++ i.text ++ "\n")

def json (p : Plan) : Json := .ofField "actions" (.array (p.map ActionInstance.json))

end Plan

def ActionInstance.ofJson? (j : Json) : Option ActionInstance := do
  match ← j.record? ["action", "args"] with
  | [some action, some args] =>
    let action ← action.text?
    let args ← args.items?
    return ⟨action, ← args.mapM Json.text?⟩
  | _ => none

def Plan.ofJson? (j : Json) : Option Plan := do
  match ← j.record? ["actions"] with
  | [some steps] => (← steps.items?).mapM ActionInstance.ofJson?
  | _ => none

def Plan.parse? (text : String) : Option Plan := Json.parse? text >>= Plan.ofJson?

end LiftedPlanning
