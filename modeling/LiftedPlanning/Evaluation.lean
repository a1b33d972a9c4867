import LiftedPlanning.Enumeration
import LiftedPlanning.State

/-!
# Evaluation

The value of an expression in a state, under a binding of its free variables. Junctions and
implications read their operands from the left and stop at the first that decides; a quantifier
does the same over the bindings of its variables. All other operators evaluate every operand, and
the first failure is the outcome; a quotient looks at its denominator first.
-/

namespace LiftedPlanning.Vocabulary

/-- The value of a fluent instance: the listed one, or else the implicit one. -/
def value (V : Vocabulary) (s : State) (i : FluentInstance) : Except ModelError Value :=
  match s.get? i with
  | some v => .ok v
  | none => do
    match (← V.fluent i.fluent).implicitValue with
    | some v => return v
    | none => .error (.undefinedValue i)

def asBool (e : Expr) : Value → Except ModelError Bool
  | .bool b => .ok b
  | _ => .error (.notBoolean e)

def asNumber (e : Expr) : Value → Except ModelError Rat
  | .number q => .ok q
  | _ => .error (.notNumeric e)

def asObject (e : Expr) : Value → Except ModelError String
  | .object o => .ok o
  | _ => .error (.notObject e)

def instanceOf (V : Vocabulary) (fluent : String) (args : List String) :
    Except ModelError FluentInstance := do
  V.checkInstance ⟨fluent, args⟩
  return ⟨fluent, args⟩

mutual

def evaluate (V : Vocabulary) (s : State) (b : Binding) : Expr → Except ModelError Value
  | .const v => .ok v
  | .var x =>
    match b x with
    | some o => .ok (.object o)
    | none => .error (.unboundVariable x)
  | .fluent f args => do
    let i ← V.instanceOf f (← V.evaluateArgs s b args)
    V.value s i
  | .not e => return .bool (!(← asBool e (← V.evaluate s b e)))
  | .junction op es => return .bool (← V.evaluateJunction s b op es)
  | .series op es => return .number (← V.evaluateSeries s b op es op.neutral)
  | .binary .implies x y => do
    if ← asBool x (← V.evaluate s b x) then return .bool (← asBool y (← V.evaluate s b y))
    else return .bool true
  | .binary .iff x y => do
    let p ← asBool x (← V.evaluate s b x)
    let q ← asBool y (← V.evaluate s b y)
    return .bool (p = q)
  | .binary .equals x y => do
    let v ← V.evaluate s b x
    let w ← V.evaluate s b y
    return .bool (v = w)
  | .binary .le x y => do
    let p ← asNumber x (← V.evaluate s b x)
    let q ← asNumber y (← V.evaluate s b y)
    return .bool (p ≤ q)
  | .binary .lt x y => do
    let p ← asNumber x (← V.evaluate s b x)
    let q ← asNumber y (← V.evaluate s b y)
    return .bool (p < q)
  | .binary .minus x y => do
    let p ← asNumber x (← V.evaluate s b x)
    let q ← asNumber y (← V.evaluate s b y)
    return .number (p - q)
  | .binary .div x y => do
    let q ← asNumber y (← V.evaluate s b y)
    if q = 0 then .error (.divisionByZero (.binary .div x y))
    else return .number ((← asNumber x (← V.evaluate s b x)) / q)
  | .quantified q vars body => do
    let domains ← V.domains vars
    let stop := !q.junction.neutral
    return .bool (← scanTuples stop
      (fun os => do asBool body (← V.evaluate s (b.setAll vars os) body)) domains)

def evaluateArgs (V : Vocabulary) (s : State) (b : Binding) :
    List Expr → Except ModelError (List String)
  | [] => .ok []
  | e :: es => do
    let o ← asObject e (← V.evaluate s b e)
    return o :: (← V.evaluateArgs s b es)

/-- The truth value of a junction: the first operand that is not neutral decides. -/
def evaluateJunction (V : Vocabulary) (s : State) (b : Binding) (op : Junction) :
    List Expr → Except ModelError Bool
  | [] => .ok op.neutral
  | e :: es => do
    let p ← asBool e (← V.evaluate s b e)
    if p = op.neutral then V.evaluateJunction s b op es else return p

/-- The value of a series, starting from what has been combined so far. -/
def evaluateSeries (V : Vocabulary) (s : State) (b : Binding) (op : Series) :
    List Expr → Rat → Except ModelError Rat
  | [], acc => .ok acc
  | e :: es, acc => do
    let q ← asNumber e (← V.evaluate s b e)
    V.evaluateSeries s b op es (op.combine acc q)

end

def holds (V : Vocabulary) (s : State) (b : Binding) (e : Expr) : Except ModelError Bool := do
  asBool e (← V.evaluate s b e)

def instanceAt (V : Vocabulary) (s : State) (b : Binding) (fluent : String) (args : List Expr) :
    Except ModelError FluentInstance := do
  V.instanceOf fluent (← V.evaluateArgs s b args)

def firstFalse (V : Vocabulary) (s : State) (b : Binding) :
    List Expr → Except ModelError (Option Expr)
  | [] => .ok none
  | e :: es => do if ← V.holds s b e then V.firstFalse s b es else return some e

end LiftedPlanning.Vocabulary
