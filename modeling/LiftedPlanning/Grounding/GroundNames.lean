import LiftedPlanning.Plan

/-!
# Ground names

The two-way table between the ground actions that a grounding made and the lifted action instances
they stand for. It knows only the instances of its own grounding.
-/

namespace LiftedPlanning

/-- Ground names with the lifted instances they stand for, in the order in which they were made. -/
structure GroundNames where
  entries : List (String × ActionInstance)
deriving DecidableEq

namespace GroundNames

def empty : GroundNames := ⟨[]⟩

/-- The lifted instance that a ground instance stands for. Ground instances have no arguments. -/
def lifted? (t : GroundNames) (i : ActionInstance) : Option ActionInstance :=
  if i.args.isEmpty then (t.entries.find? fun e => e.1 = i.action).map Prod.snd else none

def groundName? (t : GroundNames) (i : ActionInstance) : Option String :=
  (t.entries.find? fun e => e.2 = i).map Prod.fst

def contains (t : GroundNames) (name : String) : Bool := t.entries.any fun e => e.1 = name

def size (t : GroundNames) : Nat := t.entries.length

def isEmpty (t : GroundNames) : Bool := t.entries.isEmpty

end GroundNames

end LiftedPlanning
