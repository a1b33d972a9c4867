import LiftedPlanning.Json.Basic

/-!
# Problem kinds

A problem kind is the set of features that a problem uses, or that an engine can handle. Features
come in a fixed order, in which they are always listed.
-/

namespace LiftedPlanning

inductive Feature where
  | actionBased
  | flatTyping
  | hierarchicalTyping
  | numericFluents
  | negativeConditions
  | disjunctiveConditions
  | equalities
  | existentialConditions
  | universalConditions
  | conditionalEffects
  | increaseEffects
  | decreaseEffects
  | planLength
  | actionsCost
  | finalValue
deriving DecidableEq

namespace Feature

def all : List Feature :=
  [actionBased, flatTyping, hierarchicalTyping, numericFluents, negativeConditions,
    disjunctiveConditions, equalities, existentialConditions, universalConditions,
    conditionalEffects, increaseEffects, decreaseEffects, planLength, actionsCost, finalValue]

theorem mem_all (f : Feature) : f ∈ all := by cases f <;> decide

def name : Feature → String
  | actionBased => "ACTION_BASED"
  | flatTyping => "FLAT_TYPING"
  | hierarchicalTyping => "HIERARCHICAL_TYPING"
  | numericFluents => "NUMERIC_FLUENTS"
  | negativeConditions => "NEGATIVE_CONDITIONS"
  | disjunctiveConditions => "DISJUNCTIVE_CONDITIONS"
  | equalities => "EQUALITIES"
  | existentialConditions => "EXISTENTIAL_CONDITIONS"
  | universalConditions => "UNIVERSAL_CONDITIONS"
  | conditionalEffects => "CONDITIONAL_EFFECTS"
  | increaseEffects => "INCREASE_EFFECTS"
  | decreaseEffects => "DECREASE_EFFECTS"
  | planLength => "PLAN_LENGTH"
  | actionsCost => "ACTIONS_COST"
  | finalValue => "FINAL_VALUE"

/-- Tag of a feature in JSON and in error messages. -/
def tag : Feature → String
  | actionBased => "ActionBased"
  | flatTyping => "FlatTyping"
  | hierarchicalTyping => "HierarchicalTyping"
  | numericFluents => "NumericFluents"
  | negativeConditions => "NegativeConditions"
  | disjunctiveConditions => "DisjunctiveConditions"
  | equalities => "Equalities"
  | existentialConditions => "ExistentialConditions"
  | universalConditions => "UniversalConditions"
  | conditionalEffects => "ConditionalEffects"
  | increaseEffects => "IncreaseEffects"
  | decreaseEffects => "DecreaseEffects"
  | planLength => "PlanLength"
  | actionsCost => "ActionsCost"
  | finalValue => "FinalValue"

def ofName? (s : String) : Option Feature := all.find? fun f => f.name = s

/-- Whether a feature says which plans are better. -/
def isMetric : Feature → Bool
  | planLength | actionsCost | finalValue => true
  | _ => false

def json (f : Feature) : Json := .ofString f.tag

end Feature

@[ext]
structure ProblemKind where
  has : Feature → Bool

namespace ProblemKind

def all : ProblemKind := ⟨fun _ => true⟩

def ofList (fs : List Feature) : ProblemKind := ⟨fun f => f ∈ fs⟩

def set (k : ProblemKind) (f : Feature) : ProblemKind := ⟨fun g => g = f || k.has g⟩

def unset (k : ProblemKind) (f : Feature) : ProblemKind := ⟨fun g => g ≠ f && k.has g⟩

def without (k : ProblemKind) (fs : List Feature) : ProblemKind := fs.foldl unset k

def features (k : ProblemKind) : List Feature := Feature.all.filter k.has

@[simp] theorem mem_features {k : ProblemKind} {f : Feature} :
    f ∈ k.features ↔ k.has f = true := by
  simp [features, Feature.mem_all]

def names (k : ProblemKind) : List String := k.features.map Feature.name

/-- Whether the kind has the feature of a vocabulary name; no other name is a feature. -/
def hasNamed (k : ProblemKind) (name : String) : Bool := (Feature.ofName? name).any k.has

def isSubset (k l : ProblemKind) : Bool := k.features.all l.has

def same (k l : ProblemKind) : Bool := k.isSubset l && l.isSubset k

/-- The features of a kind that another one lacks, in order. -/
def missingFrom (k l : ProblemKind) : List Feature := k.features.filter fun f => !l.has f

def hasMetrics (k : ProblemKind) : Bool := k.features.any Feature.isMetric

def text (k : ProblemKind) : String := "\x7b" ++ ", ".intercalate k.names ++ "\x7d"

def json (k : ProblemKind) : Json := .ofField "features" (.array (k.features.map Feature.json))

end ProblemKind

/-! ## Capabilities -/

inductive CompilationKind where
  | grounding
  | quantifiersRemoving
deriving DecidableEq

namespace CompilationKind

def all : List CompilationKind := [grounding, quantifiersRemoving]

def name : CompilationKind → String
  | grounding => "GROUNDING"
  | quantifiersRemoving => "QUANTIFIERS_REMOVING"

def ofName? (s : String) : Option CompilationKind := all.find? fun c => c.name = s

def json : CompilationKind → Json
  | grounding => .ofString "Grounding"
  | quantifiersRemoving => .ofString "QuantifiersRemoving"

end CompilationKind

/-- What an engine can handle: the features it understands and the compilations it offers. -/
structure Capabilities where
  supported : ProblemKind
  offers : CompilationKind → Bool

namespace Capabilities

def ofKind (k : ProblemKind) : Capabilities := ⟨k, fun _ => false⟩

def offering (c : Capabilities) (kind : CompilationKind) : Capabilities :=
  ⟨c.supported, fun d => d = kind || c.offers d⟩

def compilations (c : Capabilities) : List CompilationKind := CompilationKind.all.filter c.offers

def supports (c : Capabilities) (k : ProblemKind) : Bool := k.isSubset c.supported

def missing (c : Capabilities) (k : ProblemKind) : List Feature := k.missingFrom c.supported

def json (c : Capabilities) : Json :=
  .ofFields [("supported_kind", c.supported.json),
    ("compilations", .array (c.compilations.map CompilationKind.json))]

end Capabilities

end LiftedPlanning
