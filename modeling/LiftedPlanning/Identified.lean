/-!
# Identity

Two problems of equal content may still be two problems: a copy is not the thing it was copied
from. An identified value has an identity beside its content, which stays when the content
changes.
-/

namespace LiftedPlanning

structure Identified (α : Type) where
  id : Nat
  content : α

namespace Identified

variable {α β : Type}

def update (i : Identified α) (content : α) : Identified α := ⟨i.id, content⟩

def part (i : Identified α) (f : α → β) : Identified β := ⟨i.id, f i.content⟩

end Identified

end LiftedPlanning
