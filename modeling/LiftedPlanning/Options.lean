import LiftedPlanning.Json.Reader

/-!
# Options

The settings of the engines and how they are read from JSON. A setting that is not given has its
default. Counts are integers from 0 to 2⁶⁴ - 1.
-/

namespace LiftedPlanning

/-- Settings of the grounder: whether static facts are used to drop what cannot matter, and how
many ground actions there may be. -/
structure GroundingOptions where
  pruneStatic : Bool := true
  maxGroundActions : Option Nat := none
deriving DecidableEq

/-- Settings of the validator: whether plans for problems with metrics are judged, and the metrics
evaluated. -/
structure ValidatorOptions where
  evaluateMetrics : Bool := false
deriving DecidableEq

/-- Settings of the planner: how many states it may expand. -/
structure SearchOptions where
  maxExpansions : Nat := 100000
deriving DecidableEq

namespace Json

/-- Reads a count, a whole number below 2⁶⁴. -/
def count? (j : Json) : Option Nat := j.nat?.filter fun n => n < 18446744073709551616

def optionalCount? : Json → Option (Option Nat)
  | .null => some none
  | j => j.count?.map some

def fieldOr? {α : Type} (read : Json → Option α) (default : α) : Option Json → Option α
  | none => some default
  | some j => read j

end Json

namespace GroundingOptions

def ofJson? (j : Json) : Option GroundingOptions := do
  match ← j.record? ["prune_static", "max_ground_actions"] with
  | [prune, limit] =>
    return ⟨← Json.fieldOr? Json.bool? true prune, ← Json.fieldOr? Json.optionalCount? none limit⟩
  | _ => none

def json (o : GroundingOptions) : Json :=
  .ofFields [("prune_static", .bool o.pruneStatic),
    ("max_ground_actions", .ofOption .ofNat o.maxGroundActions)]

def parse? (text : String) : Option GroundingOptions := Json.parse? text >>= ofJson?

end GroundingOptions

namespace ValidatorOptions

def ofJson? (j : Json) : Option ValidatorOptions := do
  match ← j.record? ["evaluate_metrics"] with
  | [evaluate] => return ⟨← Json.fieldOr? Json.bool? false evaluate⟩
  | _ => none

def json (o : ValidatorOptions) : Json := .ofField "evaluate_metrics" (.bool o.evaluateMetrics)

def parse? (text : String) : Option ValidatorOptions := Json.parse? text >>= ofJson?

end ValidatorOptions

namespace SearchOptions

def ofJson? (j : Json) : Option SearchOptions := do
  match ← j.record? ["max_expansions"] with
  | [limit] => return ⟨← Json.fieldOr? Json.count? 100000 limit⟩
  | _ => none

def json (o : SearchOptions) : Json := .ofField "max_expansions" (.ofNat o.maxExpansions)

def parse? (text : String) : Option SearchOptions := Json.parse? text >>= ofJson?

end SearchOptions

end LiftedPlanning
