import LiftedPlanning.Evaluation
import LiftedPlanning.Problem.Basic

/-!
# Static facts and simplification

A fluent that no action changes keeps its initial value in every state a plan can reach. Such
static facts are put into expressions, and what has become constant is folded. Simplification goes
from the innermost operators outwards; each operator is folded once, after its operands.

What could fail is left for evaluation to report: a quotient by zero, an operand of the wrong
kind, an ill-typed or undefined fluent instance.
-/

namespace LiftedPlanning

/-! ## Folding one operator -/

namespace Expr

/-- The operands of a junction that are left when neutral ones are dropped and junctions of the
same kind are flattened; `none` if some operand decides. -/
def gather (op : Junction) : List Expr → Option (List Expr)
  | [] => some []
  | const (.bool b) :: es => if b = op.neutral then gather op es else none
  | junction op' inner :: es =>
    if op' = op then (gather op es).map (inner ++ ·)
    else (gather op es).map (junction op' inner :: ·)
  | e :: es => (gather op es).map (e :: ·)

/-- A junction is decided, empty, a single operand, or stays. -/
def foldJunction (op : Junction) (es : List Expr) : Expr :=
  match gather op es with
  | none => bool (!op.neutral)
  | some [] => bool op.neutral
  | some [e] => e
  | some kept => junction op kept

def numbers? : List Expr → Option (List Rat)
  | [] => some []
  | const (.number q) :: es => (numbers? es).map (q :: ·)
  | _ => none

/-- A series is folded if it has operands and all are numbers. -/
def foldSeries (op : Series) (es : List Expr) : Expr :=
  match numbers? es with
  | some (q :: qs) => number ((q :: qs).foldl op.combine op.neutral)
  | _ => series op es

def foldNot : Expr → Expr
  | const (.bool b) => bool (!b)
  | e => not e

/-- An implication is folded if one side is a truth value; the other operations if both sides are
values they are defined on. -/
def foldBinary : BinaryOp → Expr → Expr → Expr
  | .implies, const (.bool false), _ => bool true
  | .implies, _, const (.bool true) => bool true
  | .implies, const (.bool true), b => b
  | .implies, a, const (.bool false) => not a
  | .iff, const (.bool p), const (.bool q) => bool (p = q)
  | .equals, const (.object a), const (.object b) => bool (a = b)
  | .equals, const (.number a), const (.number b) => bool (a = b)
  | .equals, const (.bool a), const (.bool b) => bool (a = b)
  | .le, const (.number a), const (.number b) => bool (a ≤ b)
  | .lt, const (.number a), const (.number b) => bool (a < b)
  | .minus, const (.number a), const (.number b) => number (a - b)
  | .div, const (.number a), const (.number b) =>
    if b = 0 then binary .div (number a) (number b) else number (a / b)
  | op, a, b => binary op a b

def objects? : List Expr → Option (List String)
  | [] => some []
  | const (.object o) :: es => (objects? es).map (o :: ·)
  | _ => none

end Expr

/-! ## Static facts -/

/-- What is known of every reachable state: the fluents that keep their initial values, and these
values. -/
structure StaticFacts where
  vocabulary : Vocabulary
  statics : List String
  initial : State

namespace StaticFacts

def ofProblem (P : Problem) : StaticFacts :=
  ⟨P.toVocabulary, P.staticFluents.map Fluent.name, P.initialState⟩

/-- The lasting value of a static fluent applied to objects, if the instance is well typed and has
one. -/
def value? (F : StaticFacts) (fluent : String) (args : List Expr) : Option Value :=
  if F.statics.contains fluent then
    match Expr.objects? args with
    | some os =>
      match (do F.vocabulary.value F.initial (← F.vocabulary.instanceOf fluent os)) with
      | .ok v => some v
      | .error _ => none
    | none => none
  else none

def foldFluent (F : StaticFacts) (fluent : String) (args : List Expr) : Expr :=
  match F.value? fluent args with
  | some v => .const v
  | none => .fluent fluent args

mutual

/-- Puts static facts into an expression and folds what is constant. -/
def simplify (F : StaticFacts) : Expr → Expr
  | .const v => .const v
  | .var x => .var x
  | .fluent f args => F.foldFluent f (F.simplifyAll args)
  | .not e => .foldNot (F.simplify e)
  | .junction op es => .foldJunction op (F.simplifyAll es)
  | .series op es => .foldSeries op (F.simplifyAll es)
  | .binary op a b => .foldBinary op (F.simplify a) (F.simplify b)
  | .quantified q vars body => .quantified q vars (F.simplify body)

def simplifyAll (F : StaticFacts) : List Expr → List Expr
  | [] => []
  | e :: es => F.simplify e :: F.simplifyAll es

end

@[simp] theorem simplifyAll_eq (F : StaticFacts) (es : List Expr) :
    F.simplifyAll es = es.map F.simplify := by
  induction es with
  | nil => rfl
  | cons e es ih => simp [simplifyAll, ih]

end StaticFacts

end LiftedPlanning
