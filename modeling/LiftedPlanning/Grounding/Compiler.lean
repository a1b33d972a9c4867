import LiftedPlanning.Grounding.GroundNames
import LiftedPlanning.Problem.Basic

/-!
# Compilers

A compiler turns a problem into another one, together with the way back from plans for the new
problem to plans for the old one.
-/

namespace LiftedPlanning

inductive GroundingError where
  | unsupportedFeature (engine : String) (features : List Feature)
  | unsupportedCompilation (engine : String) (kind : CompilationKind)
  | unknownInstance (i : ActionInstance)
  | tooManyGroundActions (problem : String) (limit : Nat)
  | cancelled
  | model (e : ModelError)
deriving DecidableEq

def GroundingError.message : GroundingError → String
  | unsupportedFeature engine features =>
    engine ++ " does not support the features [" ++ ", ".intercalate (features.map Feature.tag)
      ++ "]"
  | unsupportedCompilation engine kind => engine ++ " does not offer the compilation " ++ kind.name
  | unknownInstance i => i.text ++ " was not produced by this grounding"
  | tooManyGroundActions problem limit =>
    "grounding " ++ problem ++ " exceeds the limit of " ++ toString limit ++ " ground actions"
  | cancelled => "grounding was cancelled"
  | model e => e.message

/-- A compiled problem with the way back. -/
structure CompilerResult where
  problem : Problem
  names : GroundNames
  engine : String
deriving DecidableEq

namespace CompilerResult

/-- The instance of the old problem that a step of the new one stands for. -/
def mapBack (r : CompilerResult) (i : ActionInstance) : Except GroundingError ActionInstance :=
  match r.names.lifted? i with
  | some l => .ok l
  | none => .error (.unknownInstance i)

def mapBackPlan (r : CompilerResult) (p : Plan) : Except GroundingError Plan :=
  p.replaceSteps r.mapBack

end CompilerResult

structure Compiler where
  name : String
  capabilities : Capabilities
  compile : Problem → CompilationKind → Except GroundingError CompilerResult

end LiftedPlanning
