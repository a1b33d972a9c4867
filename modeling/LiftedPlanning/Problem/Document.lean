import LiftedPlanning.Problem.Basic
import LiftedPlanning.Sha256

/-!
# Problems as documents

A problem as it is shown, as a JSON document, and its fingerprint, the digest of that document.
-/

namespace LiftedPlanning.Problem

def block (title : String) (items : List String) : String :=
  title ++ " = [\n" ++ String.join (items.map fun i => "  " ++ i ++ "\n") ++ "]\n"

def text (P : Problem) : String :=
  "problem name = " ++ P.name ++ "\n"
    ++ "types = [" ++ ", ".intercalate P.types.names ++ "]\n"
    ++ block "objects" (P.objects.map Object.text)
    ++ block "actions" (P.actions.map Action.text)
    ++ block "initial values"
      (P.initialValues.entries.map fun e => e.1.text ++ " := " ++ e.2.text)
    ++ block "goals" (P.goals.map Expr.text)
    ++ String.join (P.metrics.map fun m => "metric = " ++ m.text ++ "\n")

def json (P : Problem) : Json :=
  .ofFields [("name", .ofString P.name), ("types", P.types.json),
    ("objects", .array (P.objects.map Object.json)),
    ("fluents", .array (P.fluents.map Fluent.json)),
    ("initial_values", .array (P.initialValues.entries.map fun e => .array [e.1.json, e.2.json])),
    ("actions", .array (P.actions.map Action.json)),
    ("goals", .array (P.goals.map Expr.json)),
    ("quality_metrics", .array (P.metrics.map QualityMetric.json))]

/-- The digest of the JSON text; problems of equal content have equal fingerprints. -/
def fingerprint (P : Problem) : String := Sha256.hexDigest P.json.render

end LiftedPlanning.Problem
