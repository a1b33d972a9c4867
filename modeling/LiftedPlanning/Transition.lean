import LiftedPlanning.Evaluation

/-!
# Transitions

How an action changes a state. Conditions, targets and values of all effects are evaluated in the
state before the action; the changes are then made in order of declaration, each on what the
changes before it have left.
-/

namespace LiftedPlanning

structure Update where
  target : FluentInstance
  kind : EffectKind
  value : Value

namespace Vocabulary

/-- The changes that effects make: one for each effect whose condition holds. -/
def updates (V : Vocabulary) (s : State) (b : Binding) :
    List Effect → Except ModelError (List Update)
  | [] => .ok []
  | e :: es => do
    if ← V.holds s b e.condition then
      let target ← V.instanceAt s b e.fluent e.args
      let value ← V.evaluate s b e.value
      return ⟨target, e.kind, value⟩ :: (← V.updates s b es)
    else V.updates s b es

def shifted (i : FluentInstance) (change : Rat → Rat → Rat) :
    Value → Value → Except ModelError Value
  | .number current, .number delta => .ok (.number (change current delta))
  | _, _ => .error (.notNumeric (.fluent i.fluent (i.args.map .object)))

def updatedValue (V : Vocabulary) (s : State) (u : Update) : Except ModelError Value :=
  match u.kind with
  | .assign => .ok u.value
  | .increase => do shifted u.target (· + ·) (← V.value s u.target) u.value
  | .decrease => do shifted u.target (· - ·) (← V.value s u.target) u.value

/-- Makes one change. The value of the update must be one that the fluent accepts. -/
def applyUpdate (V : Vocabulary) (s : State) (u : Update) : Except ModelError State := do
  let f ← V.fluent u.target.fluent
  if f.accepts u.value then
    let v ← V.updatedValue s u
    return s.put u.target v f.implicitValue
  else .error (.wrongValue u.target.text "value" f.valueType u.value)

/-- The state after the effects of an action; its preconditions are not looked at. -/
def apply (V : Vocabulary) (s : State) (b : Binding) (a : Action) : Except ModelError State := do
  (← V.updates s b a.effects).foldlM V.applyUpdate s

def step (V : Vocabulary) (s : State) (b : Binding) (a : Action) :
    Except ModelError (Option State) := do
  match ← V.firstFalse s b a.preconditions with
  | some _ => return none
  | none => return some (← V.apply s b a)

end Vocabulary

end LiftedPlanning
