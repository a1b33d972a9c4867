import LiftedPlanning.Grounding.Compiler
import LiftedPlanning.Identified
import LiftedPlanning.Problem.Document

/-!
# Grounding cache

Remembers groundings by compiler name, identity of the problem and fingerprint of its content. A
copy of a problem has an identity of its own, so it is not answered from what was made for its
source; nor is a problem that has changed since. Failures are not remembered.
-/

namespace LiftedPlanning

/-- What a remembered grounding was made from. -/
structure CacheKey where
  compiler : String
  problem : Nat
  fingerprint : String
deriving DecidableEq

/-- The remembered groundings, newest first, and how often a request was answered from them. -/
structure GroundingCache where
  entries : List (CacheKey × Identified CompilerResult)
  hits : Nat
  misses : Nat

namespace GroundingCache

def empty : GroundingCache := ⟨[], 0, 0⟩

def size (c : GroundingCache) : Nat := c.entries.length

def isEmpty (c : GroundingCache) : Bool := c.entries.isEmpty

def keyOf (compiler : Compiler) (P : Identified Problem) : CacheKey :=
  ⟨compiler.name, P.id, P.content.fingerprint⟩

def find? (c : GroundingCache) (key : CacheKey) : Option (Identified CompilerResult) :=
  (c.entries.find? fun e => e.1 = key).map Prod.snd

/-- Answers a request from the cache, or else compiles. A new result gets the identity `id`. -/
def request (c : GroundingCache) (compiler : Compiler) (P : Identified Problem) (id : Nat) :
    GroundingCache × Except GroundingError (Identified CompilerResult) :=
  match c.find? (keyOf compiler P) with
  | some r => ({ c with hits := c.hits + 1 }, .ok r)
  | none =>
    match compiler.compile P.content .grounding with
    | .ok r =>
      (⟨(keyOf compiler P, ⟨id, r⟩) :: c.entries, c.hits, c.misses + 1⟩, .ok ⟨id, r⟩)
    | .error e => ({ c with misses := c.misses + 1 }, .error e)

end GroundingCache

end LiftedPlanning
