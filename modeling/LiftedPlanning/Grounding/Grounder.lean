import LiftedPlanning.Grounding.Compiler
import LiftedPlanning.Grounding.FreshName
import LiftedPlanning.Grounding.StaticFacts
import LiftedPlanning.Options
import LiftedPlanning.Problem.Features

/-!
# Grounding

The grounder makes one ground action for every list of arguments that fits an action: the
arguments are put in place of the parameters and quantifiers are expanded. With pruning, static
facts are used as well: an action with a precondition that folded to false is not made,
preconditions and goals that folded to true are dropped, and so are effects whose condition
folded to false.

Actions are taken in order of declaration and arguments in the order of `Vocabulary.bindings`.
-/

namespace LiftedPlanning

/-- The grounding engine: its settings, the features it accepts, and whether it was told to
stop. -/
structure Grounder where
  options : GroundingOptions := {}
  supported : ProblemKind := .all
  cancelled : Bool := false

structure Grounded where
  action : Action
  origin : Action
  args : List String

namespace Grounded

def name (g : Grounded) : String := g.action.name

def lifted (g : Grounded) : ActionInstance := ⟨g.origin.name, g.args⟩

def binding (g : Grounded) : Binding := .ofArgs g.origin.parameters g.args

end Grounded

/-- The ground actions made so far, newest first, and the set of their names, which are
distinct. -/
structure Grounding where
  made : List Grounded
  names : Std.TreeSet String
  mem_names : ∀ n, n ∈ names ↔ n ∈ made.map Grounded.name
  size_names : names.size = made.length

namespace Grounding

def empty : Grounding := ⟨[], ∅, by simp, by simp⟩

def add (g : Grounding) (x : Grounded) (fresh : x.name ∉ g.names) : Grounding where
  made := x :: g.made
  names := g.names.insert x.name
  mem_names n := by
    rw [Std.TreeSet.mem_insert, g.mem_names, List.map_cons, List.mem_cons,
      Std.LawfulEqCmp.compare_eq_iff_eq]
    exact or_congr_left eq_comm
  size_names := by
    rw [Std.TreeSet.size_insert, if_neg (mt Std.TreeSet.mem_iff_contains.mpr fresh), g.size_names,
      List.length_cons]

end Grounding

namespace Grounder

def engineName : String := "enumerative-grounder"

def capabilities (g : Grounder) : Capabilities := (Capabilities.ofKind g.supported).offering .grounding

/-! ## Expressions -/

/-- Simplifies if pruning is on. -/
def fold (facts : Option StaticFacts) (e : Expr) : Expr :=
  match facts with
  | some F => F.simplify e
  | none => e

/-- Puts objects in place of variables and expands quantifiers; with pruning, simplifies. -/
def groundExpr (V : Vocabulary) (facts : Option StaticFacts) (b : Binding) (e : Expr) :
    Except ModelError Expr :=
  return fold facts (← V.expand (e.substitute b))

/-! ## Actions -/

/-- The ground preconditions, without those that folded to true; `none` if one folded to false. -/
def groundPreconditions (V : Vocabulary) (facts : Option StaticFacts) (b : Binding) :
    List Expr → Except ModelError (Option (List Expr))
  | [] => .ok (some [])
  | e :: es => do
    let e ← groundExpr V facts b e
    if facts.isSome && e = .bool false then return none
    else
      let rest ← groundPreconditions V facts b es
      if facts.isSome && e = .bool true then return rest else return rest.map (e :: ·)

/-- The ground effects, without those whose condition folded to false. -/
def groundEffects (V : Vocabulary) (facts : Option StaticFacts) (b : Binding) :
    List Effect → Except ModelError (List Effect)
  | [] => .ok []
  | e :: es => do
    let condition ← groundExpr V facts b e.condition
    if facts.isSome && condition = .bool false then groundEffects V facts b es
    else
      let value ← groundExpr V facts b e.value
      let args := e.args.map (Expr.substitute b)
      return ⟨e.fluent, args, e.kind, value, condition⟩ :: (← groundEffects V facts b es)

/-- The ground action for a binding of the parameters, still without its name; `none` if it can
never be applied. -/
def groundAction (V : Vocabulary) (facts : Option StaticFacts) (b : Binding) (a : Action) :
    Except ModelError (Option (List Expr × List Effect)) := do
  match ← groundPreconditions V facts b a.preconditions with
  | none => return none
  | some preconditions => return some (preconditions, ← groundEffects V facts b a.effects)

/-- Adds a ground action under a fresh name. It is checked like any action; the check that its
name is new is left out, because a fresh name is. -/
def emit (V : Vocabulary) (g : Grounding) (a : Action) (args : List String)
    (preconditions : List Expr) (effects : List Effect) : Except ModelError Grounding := do
  let base := "_".intercalate (a.name :: args)
  let action : Action := ⟨FreshName.fresh g.names base, [], preconditions, effects⟩
  V.checkAction action
  return g.add ⟨action, a, args⟩ (FreshName.fresh_notMem g.names base)

def groundArgs (G : Grounder) (P : Problem) (facts : Option StaticFacts) (a : Action)
    (g : Grounding) (args : List String) : Except GroundingError Grounding :=
  if G.cancelled then .error .cancelled
  else do
    let b := Binding.ofArgs a.parameters args
    match ← (groundAction P.toVocabulary facts b a).mapError .model with
    | none => return g
    | some (preconditions, effects) =>
      match G.options.maxGroundActions.filter fun n => n ≤ g.names.size with
      | some n => .error (.tooManyGroundActions P.name n)
      | none => (emit P.toVocabulary g a args preconditions effects).mapError .model

def groundSchema (G : Grounder) (P : Problem) (facts : Option StaticFacts) (g : Grounding)
    (a : Action) : Except GroundingError Grounding := do
  let domains ← (P.domains a.parameters).mapError .model
  foldTuples (G.groundArgs P facts a) g domains

/-! ## Goals and metrics -/

/-- Adds the grounding of one more goal, unless it folded to true. -/
def groundGoal (P : Problem) (facts : Option StaticFacts) (ground : Problem) (goal : Expr) :
    Except ModelError Problem := do
  let goal ← groundExpr P.toVocabulary facts .empty goal
  if facts.isSome && goal = .bool true then return ground else ground.addGoal goal

/-- The ground cost of a ground action, if the metric gives its lifted action a cost. -/
def groundCost (V : Vocabulary) (facts : Option StaticFacts) (m : QualityMetric) (g : Grounded) :
    Except ModelError (Option (String × Expr)) :=
  match m.actionCost g.origin.name with
  | some cost => return some (g.name, ← groundExpr V facts g.binding cost)
  | none => .ok none

/-- The ground metric: costs are listed by ground action and need no default. -/
def groundMetric (V : Vocabulary) (facts : Option StaticFacts) (made : List Grounded) :
    QualityMetric → Except ModelError QualityMetric
  | .planLength => .ok .planLength
  | .actionCosts costs default => do
    let costs ← made.mapM (groundCost V facts (.actionCosts costs default))
    return .actionCosts (.ofList (costs.filterMap id)) none
  | .minimizeFinal e => return .minimizeFinal (← groundExpr V facts .empty e)
  | .maximizeFinal e => return .maximizeFinal (← groundExpr V facts .empty e)

/-! ## Problems -/

def namesOf (made : List Grounded) : GroundNames := ⟨made.map fun g => (g.name, g.lifted)⟩

/-- The problem that has the vocabulary and the initial values of another, and the actions made. -/
def groundBase (P : Problem) (made : List Grounded) : Problem :=
  { P.skeleton (P.name ++ "_grounded") with actions := made.map Grounded.action }

/-- Grounds a problem all of whose features are accepted. -/
def groundProblem (G : Grounder) (P : Problem) : Except GroundingError CompilerResult := do
  let facts := if G.options.pruneStatic then some (StaticFacts.ofProblem P) else none
  let made := (← P.actions.foldlM (G.groundSchema P facts) .empty).made.reverse
  let problem ← (P.goals.foldlM (groundGoal P facts) (groundBase P made)).mapError .model
  let metrics ← (P.metrics.mapM (groundMetric P.toVocabulary facts made)).mapError .model
  return ⟨metrics.foldl Problem.addMetric problem, namesOf made, engineName⟩

/-- Grounds a problem. The result has no parameters, quantifiers or variables left. -/
def ground (G : Grounder) (P : Problem) : Except GroundingError CompilerResult :=
  match G.capabilities.missing P.kind with
  | [] => G.groundProblem P
  | f :: fs => .error (.unsupportedFeature engineName (f :: fs))

/-- The only compilation offered is grounding. -/
def compile (G : Grounder) (P : Problem) (kind : CompilationKind) :
    Except GroundingError CompilerResult :=
  if G.capabilities.offers kind then G.ground P
  else .error (.unsupportedCompilation engineName kind)

def toCompiler (G : Grounder) : Compiler := ⟨engineName, G.capabilities, G.compile⟩

end Grounder

end LiftedPlanning
