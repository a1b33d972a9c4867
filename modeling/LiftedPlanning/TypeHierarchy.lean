import LiftedPlanning.ModelError

/-!
# Type hierarchy

Types form a forest: each has at most one parent, which was declared before it. The declarations
are kept newest first, so the parent of a type stands further down the list and the walk to the
root is structural recursion.
-/

namespace LiftedPlanning

structure TypeDecl where
  name : String
  parent : Option String
deriving DecidableEq

/-- The declared types, newest first. -/
structure TypeHierarchy where
  declared : List TypeDecl
deriving DecidableEq

namespace TypeHierarchy

def empty : TypeHierarchy := ⟨[]⟩

def find? (h : TypeHierarchy) (t : String) : Option TypeDecl := h.declared.find? fun d => d.name = t

def contains (h : TypeHierarchy) (t : String) : Bool := h.declared.any fun d => d.name = t

def parent? (h : TypeHierarchy) (t : String) : Option String := (h.find? t).bind TypeDecl.parent

/-- Declares a type. The name must be new and the parent known. -/
def declare (h : TypeHierarchy) (name : String) (parent : Option String) :
    Except ModelError TypeHierarchy :=
  if h.contains name then .error (.duplicateType name)
  else match parent with
    | some p =>
      if h.contains p then .ok ⟨⟨name, some p⟩ :: h.declared⟩ else .error (.unknownType p)
    | none => .ok ⟨⟨name, none⟩ :: h.declared⟩

/-- The type and its supertypes up to the root, along declarations listed newest first. -/
def chain : List TypeDecl → String → List String
  | [], _ => []
  | d :: ds, t =>
    if d.name = t then
      t :: (match d.parent with
        | some p => chain ds p
        | none => [])
    else chain ds t

/-- The type and its supertypes up to the root; none for an unknown type. -/
def ancestors (h : TypeHierarchy) (t : String) : List String := chain h.declared t

/-- Whether an object of the type `sub` may stand where `sup` is expected. Unknown types are
never compatible. -/
def isCompatible (h : TypeHierarchy) (sub sup : String) : Bool := (h.ancestors sub).contains sup

def isHierarchical (h : TypeHierarchy) : Bool := h.declared.any fun d => d.parent.isSome

def names (h : TypeHierarchy) : List String := (h.declared.map TypeDecl.name).reverse

def size (h : TypeHierarchy) : Nat := h.declared.length

def isEmpty (h : TypeHierarchy) : Bool := h.declared.isEmpty

/-- JSON form: the types in order of declaration, each with the position of its parent. -/
def json (h : TypeHierarchy) : Json :=
  .ofField "nodes" (.array (h.declared.reverse.map fun d =>
    .ofFields [("name", .ofString d.name),
      ("parent", .ofOption .ofNat (d.parent.bind fun p => h.names.idxOf? p))]))

end TypeHierarchy

end LiftedPlanning
