import LiftedPlanning.Expr.Basic

/-!
# Bindings, substitution, free variables

A binding gives some variables an object. A quantifier hides the outer meaning of the variables
it binds: substitution takes them out of the binding, and free variables leave them out.
-/

namespace LiftedPlanning

/-- A partial assignment of objects to variables. -/
abbrev Binding := String → Option String

namespace Binding

def empty : Binding := fun _ => none

def set (b : Binding) (x o : String) : Binding := fun y => if y = x then some o else b y

/-- Binds parameters to arguments, position by position; of a repeated name the last wins. -/
def setAll (b : Binding) : List Parameter → List String → Binding
  | p :: ps, o :: os => (b.set p.name o).setAll ps os
  | _, _ => b

def ofArgs (params : List Parameter) (args : List String) : Binding := empty.setAll params args

/-- The binding of a list of pairs; a later pair for the same variable wins. -/
def ofPairs (pairs : List (String × String)) : Binding :=
  pairs.foldl (fun b p => b.set p.1 p.2) empty

/-- Takes variables out of a binding. -/
def hide (b : Binding) (vars : List Parameter) : Binding :=
  fun y => if Parameter.binds vars y then none else b y

end Binding

namespace Expr

mutual

/-- Replaces every free variable that is bound with its object. -/
def substitute (b : Binding) : Expr → Expr
  | const v => const v
  | var x =>
    match b x with
    | some o => object o
    | none => var x
  | fluent f args => fluent f (substituteAll b args)
  | not e => not (substitute b e)
  | junction op es => junction op (substituteAll b es)
  | series op es => series op (substituteAll b es)
  | binary op x y => binary op (substitute b x) (substitute b y)
  | quantified q vars body => quantified q vars (substitute (b.hide vars) body)

def substituteAll (b : Binding) : List Expr → List Expr
  | [] => []
  | e :: es => substitute b e :: substituteAll b es

end

@[simp] theorem substituteAll_eq (b : Binding) (es : List Expr) :
    substituteAll b es = es.map (substitute b) := by
  induction es with
  | nil => rfl
  | cons e es ih => simp [substituteAll, ih]

mutual

/-- The free occurrences of variables, from left to right. -/
def freeOccurrences : Expr → List String
  | const _ => []
  | var x => [x]
  | fluent _ args => freeOccurrencesOfAll args
  | not e => freeOccurrences e
  | junction _ es => freeOccurrencesOfAll es
  | series _ es => freeOccurrencesOfAll es
  | binary _ a b => freeOccurrences a ++ freeOccurrences b
  | quantified _ vars body => (freeOccurrences body).filter fun x => !Parameter.binds vars x

def freeOccurrencesOfAll : List Expr → List String
  | [] => []
  | e :: es => freeOccurrences e ++ freeOccurrencesOfAll es

end

@[simp] theorem freeOccurrencesOfAll_eq (es : List Expr) :
    freeOccurrencesOfAll es = es.flatMap freeOccurrences := by
  induction es with
  | nil => rfl
  | cons e es ih => simp [freeOccurrencesOfAll, ih]

/-- The free variables, each once, in the order of their names. -/
def freeVariables (e : Expr) : List String :=
  e.freeOccurrences.eraseDups.mergeSort fun x y => decide (x ≤ y)

@[simp] theorem mem_freeVariables {x : String} {e : Expr} :
    x ∈ e.freeVariables ↔ x ∈ e.freeOccurrences := by
  simp [freeVariables, List.mem_mergeSort]

end Expr

end LiftedPlanning
