import Std.Data.TreeSet
import LiftedPlanning.Options
import LiftedPlanning.Plan
import LiftedPlanning.Problem.Features
import LiftedPlanning.Problem.Successor
import LiftedPlanning.Queue

/-!
# Breadth-first search

The planner looks for a plan by visiting states in the order of their distance from the initial
state. A state is expanded by trying every candidate step, an action with arguments that fit, in
order of declaration. A state that was seen before is not visited again, and a new one is tested
for the goals as soon as it is made. Quality metrics play no part.

The search stops when a goal state is made, when no state is left to expand, or when the limit on
expansions is reached.
-/

namespace LiftedPlanning

inductive PlanStatus where
  | solved
  | unsolvable
  | limitReached
  | cancelled
deriving DecidableEq

def PlanStatus.name : PlanStatus → String
  | solved => "SOLVED_SATISFICING"
  | unsolvable => "UNSOLVABLE"
  | limitReached => "SEARCH_LIMIT_REACHED"
  | cancelled => "CANCELLED"

/-- The outcome of a search: how many states were expanded, and how many steps led to a state. -/
structure PlanResult where
  status : PlanStatus
  plan : Option Plan
  engine : String
  expansions : Nat
  generated : Nat
deriving DecidableEq

/-- An action with arguments that fit its parameters. -/
structure Candidate where
  action : Action
  args : List String

namespace Candidate

def step (c : Candidate) : ActionInstance := ⟨c.action.name, c.args⟩

def binding (c : Candidate) : Binding := .ofArgs c.action.parameters c.args

end Candidate

/-- A state with the steps that lead to it, the last one first. -/
structure SearchNode where
  state : State
  steps : List ActionInstance

/-- What a search has found so far: the nodes to expand, the states seen, and how many steps led
to a state. -/
structure Frontier where
  queue : Queue SearchNode
  seen : Std.TreeSet State State.order
  generated : Nat

/-- The outcome of expanding a node: a goal was reached, or the search goes on. -/
inductive Expansion where
  | reached (node : SearchNode) (generated : Nat)
  | searching (frontier : Frontier)

structure BreadthFirstPlanner where
  options : SearchOptions := {}
  cancelled : Bool := false

namespace BreadthFirstPlanner

def engineName : String := "breadth-first"

def capabilities : Capabilities := .ofKind .all

def candidatesOf (P : Problem) (a : Action) : Except ModelError (List Candidate) :=
  return (← P.bindings a.parameters).map fun args => ⟨a, args⟩

def candidates (P : Problem) : Except ModelError (List Candidate) :=
  return (← P.actions.mapM (candidatesOf P)).flatten

def start (s : State) : Frontier :=
  ⟨.singleton ⟨s, []⟩, (∅ : Std.TreeSet State State.order).insert s, 0⟩

/-- Takes up a state to which a step has led. -/
def visit (P : Problem) (f : Frontier) (node : SearchNode) : Except ModelError Expansion :=
  if f.seen.contains node.state then
    .ok (.searching { f with generated := f.generated + 1 })
  else do
    match ← P.firstUnreachedGoal node.state with
    | none => return .reached node (f.generated + 1)
    | some _ =>
      return .searching ⟨f.queue.push node, f.seen.insert node.state, f.generated + 1⟩

/-- Tries candidates on a node, in order, until a goal is reached. -/
def expand (P : Problem) (node : SearchNode) :
    List Candidate → Frontier → Except ModelError Expansion
  | [], f => .ok (.searching f)
  | c :: cs, f => do
    match ← P.step node.state c.binding c.action with
    | none => expand P node cs f
    | some s =>
      match ← visit P f ⟨s, c.step :: node.steps⟩ with
      | .reached n generated => return .reached n generated
      | .searching f => expand P node cs f

def unsolved (status : PlanStatus) (expansions generated : Nat) : PlanResult :=
  ⟨status, none, engineName, expansions, generated⟩

/-- Expands nodes in order, at most `remaining` more of them. -/
def explore (P : Problem) (cs : List Candidate) (expansions : Nat) (f : Frontier) :
    (remaining : Nat) → Except ModelError PlanResult
  | 0 =>
    match f.queue.pop? with
    | none => .ok (unsolved .unsolvable expansions f.generated)
    | some _ => .ok (unsolved .limitReached expansions f.generated)
  | remaining + 1 =>
    match f.queue.pop? with
    | none => .ok (unsolved .unsolvable expansions f.generated)
    | some (node, queue) => do
      match ← expand P node cs { f with queue := queue } with
      | .reached n generated =>
        return ⟨.solved, some n.steps.reverse, engineName, expansions + 1, generated⟩
      | .searching f => explore P cs (expansions + 1) f remaining

/-- Looks for a plan. If the goals hold initially, the empty plan is one. -/
def solve (p : BreadthFirstPlanner) (P : Problem) : Except ModelError PlanResult := do
  let cs ← candidates P
  match ← P.firstUnreachedGoal P.initialState with
  | none => return ⟨.solved, some [], engineName, 0, 0⟩
  | some _ =>
    if p.cancelled then return unsolved .cancelled 0 0
    else explore P cs 0 (start P.initialState) p.options.maxExpansions

end BreadthFirstPlanner

end LiftedPlanning
