import LiftedPlanning.Grounding.Grounder
import LiftedPlanning.Search
import LiftedPlanning.Validation

/-!
# Engine registry

Engines in the order of their registration. An engine is picked by its name, or as the first one
that can handle a problem kind.
-/

namespace LiftedPlanning

structure Planner where
  name : String
  capabilities : Capabilities
  solve : Problem → Except ModelError PlanResult

def BreadthFirstPlanner.toPlanner (p : BreadthFirstPlanner) : Planner :=
  ⟨BreadthFirstPlanner.engineName, BreadthFirstPlanner.capabilities, p.solve⟩

structure Validator where
  name : String
  capabilities : Capabilities
  validate : Problem → Plan → Except ValidationError ValidationResult

def PlanValidator.toValidator (v : PlanValidator) : Validator :=
  ⟨v.name, v.capabilities, v.validate⟩

inductive EngineRole where
  | compiler (compilation : CompilationKind)
  | planner
  | validator
deriving DecidableEq

def EngineRole.name : EngineRole → String
  | compiler compilation => compilation.name ++ " compiler"
  | planner => "planner"
  | validator => "plan validator"

inductive EngineError where
  | unknownEngine (name : String)
  | noSupportingEngine (role : EngineRole) (kind : ProblemKind)
  | grounding (e : GroundingError)
  | validation (e : ValidationError)
  | planning (e : ModelError)

def EngineError.message : EngineError → String
  | unknownEngine name => "no engine named " ++ name
  | noSupportingEngine role kind =>
    "no " ++ role.name ++ " supports the problem kind " ++ kind.text
  | grounding e => e.message
  | validation e => e.message
  | planning e => e.message

structure Registry where
  compilers : List Compiler
  planners : List Planner
  validators : List Validator

namespace Registry

def empty : Registry := ⟨[], [], []⟩

def addCompiler (r : Registry) (c : Compiler) : Registry :=
  { r with compilers := r.compilers ++ [c] }

def addPlanner (r : Registry) (p : Planner) : Registry := { r with planners := r.planners ++ [p] }

def addValidator (r : Registry) (v : Validator) : Registry :=
  { r with validators := r.validators ++ [v] }

/-- The grounder, the breadth-first planner, and the plan validator without and with metrics. -/
def standard : Registry :=
  ⟨[Grounder.toCompiler {}], [BreadthFirstPlanner.toPlanner {}],
    [PlanValidator.toValidator {}, PlanValidator.toValidator ⟨⟨true⟩, false⟩]⟩

def found {α : Type} (e : EngineError) : Option α → Except EngineError α
  | some a => .ok a
  | none => .error e

def compiler (r : Registry) (name : String) : Except EngineError Compiler :=
  found (.unknownEngine name) (r.compilers.find? fun c => c.name = name)

def planner (r : Registry) (name : String) : Except EngineError Planner :=
  found (.unknownEngine name) (r.planners.find? fun p => p.name = name)

def compilerFor (r : Registry) (kind : ProblemKind) (compilation : CompilationKind) :
    Except EngineError Compiler :=
  found (.noSupportingEngine (.compiler compilation) kind) (r.compilers.find? fun c =>
    c.capabilities.offers compilation && c.capabilities.supports kind)

def plannerFor (r : Registry) (kind : ProblemKind) : Except EngineError Planner :=
  found (.noSupportingEngine .planner kind) (r.planners.find? fun p => p.capabilities.supports kind)

def validatorFor (r : Registry) (kind : ProblemKind) : Except EngineError Validator :=
  found (.noSupportingEngine .validator kind)
    (r.validators.find? fun v => v.capabilities.supports kind)

def plannerNames (r : Registry) : List String := r.planners.map Planner.name

end Registry

end LiftedPlanning
