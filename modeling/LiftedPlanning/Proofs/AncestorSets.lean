import LiftedPlanning.Proofs.SubtypeOrder
import LiftedPlanning.SortedMap
import Mathlib.Data.Finset.Insert
import Mathlib.Data.Option.Basic

/-!
# Ancestor sets

Whether types are compatible can be looked up: an arena keeps with every type the positions of all
its ancestors. The set is made once, when the type is declared, from the set of the parent.

A hierarchy and an arena that take the same declarations stay in step: both accept a declaration
or both refuse it with the same error, and the sets hold the positions of the types that the walk
to the root meets (`TypeArena.Represents`). So the sets answer as the walk does, after any sequence
of declarations, and the answer is the order of types (`TypeArena.declareAll_subtypeOrder`).
-/

namespace LiftedPlanning

/-- A type in an arena: the position of its parent, and the positions of all its ancestors, its own
included. -/
structure TypeNode where
  name : String
  parent : Option Nat
  ancestors : Finset Nat

/-- Types in order of declaration, and the position of each name. -/
structure TypeArena where
  nodes : List TypeNode
  positions : SortedMap String Nat

namespace TypeArena

def empty : TypeArena := ⟨[], .empty⟩

def position (A : TypeArena) (t : String) : Except ModelError Nat :=
  match A.positions.get? t with
  | some i => .ok i
  | none => .error (.unknownType t)

def nameAt (A : TypeArena) (i : Nat) : Option String := A.nodes[i]?.map TypeNode.name

def ancestorsAt (A : TypeArena) (i : Nat) : Finset Nat :=
  (A.nodes[i]?.map TypeNode.ancestors).getD ∅

/-- Adds a type, which is its own ancestor besides those it inherits. -/
def push (A : TypeArena) (name : String) (parent : Option Nat) (inherited : Finset Nat) :
    TypeArena :=
  ⟨A.nodes ++ [⟨name, parent, insert A.nodes.length inherited⟩],
    A.positions.insert name A.nodes.length⟩

def declare (A : TypeArena) (name : String) (parent : Option String) :
    Except ModelError TypeArena :=
  if (A.positions.get? name).isSome then .error (.duplicateType name)
  else match parent with
    | some p => do
      let i ← A.position p
      return A.push name (some i) (A.ancestorsAt i)
    | none => .ok (A.push name none ∅)

def parent? (A : TypeArena) (t : String) : Option String := do
  let i ← A.positions.get? t
  let n ← A.nodes[i]?
  A.nameAt (← n.parent)

/-- Whether `sup` is among the ancestors of `sub`. Unknown types are never compatible. -/
def isCompatible (A : TypeArena) (sub sup : String) : Bool :=
  match A.positions.get? sub, A.positions.get? sup with
  | some i, some j => j ∈ A.ancestorsAt i
  | _, _ => false

def attempt (A : TypeArena) (d : TypeDecl) : TypeArena :=
  match A.declare d.name d.parent with
  | .ok A' => A'
  | .error _ => A

def declareAll (ds : List TypeDecl) : TypeArena := ds.foldl attempt empty

variable {A : TypeArena} {h : TypeHierarchy} {t u name : String} {i : Nat}

theorem nameAt_push {parent : Option Nat} {inherited : Finset Nat} :
    (A.push name parent inherited).nameAt i = some u ↔
      A.nameAt i = some u ∨ (i = A.nodes.length ∧ u = name) := by
  rw [nameAt, nameAt, push, List.getElem?_append]
  split
  · next hlt => simp [hlt.ne]
  · next hge =>
    rw [List.getElem?_eq_none (Nat.le_of_not_lt hge), List.getElem?_singleton]
    by_cases hi : i = A.nodes.length
    · simp [hi, eq_comm]
    · simp [hi, show i - A.nodes.length ≠ 0 by omega]

/-! ## Arenas and hierarchies -/

/-- The arena has the types of the hierarchy, finds each by its name, and gives each its parent and
its ancestors by their positions. -/
structure Represents (A : TypeArena) (h : TypeHierarchy) : Prop where
  names : A.nodes.map TypeNode.name = h.names
  positions : ∀ t i, A.positions.get? t = some i ↔ A.nameAt i = some t
  parents : ∀ n ∈ A.nodes, Option.Rel (fun i p => A.nameAt i = some p) n.parent (h.parent? n.name)
  ancestors : ∀ n ∈ A.nodes, ∀ i,
    i ∈ n.ancestors ↔ ∃ u ∈ h.ancestors n.name, A.nameAt i = some u

namespace Represents

theorem contains_iff (hA : A.Represents h) :
    h.contains t = true ↔ ∃ i, A.positions.get? t = some i := by
  rw [TypeHierarchy.contains_iff, ← TypeHierarchy.mem_names_iff, ← hA.names,
    List.mem_iff_getElem?]
  simp only [hA.positions, nameAt, List.getElem?_map]

/-- The type that a position stands for. -/
theorem node (hA : A.Represents h) (ht : A.positions.get? t = some i) :
    ∃ n ∈ A.nodes, A.nodes[i]? = some n ∧ n.name = t := by
  obtain ⟨n, hn, hname⟩ := Option.map_eq_some_iff.mp ((hA.positions t i).mp ht)
  exact ⟨n, List.mem_of_getElem? hn, hn, hname⟩

theorem mem_ancestorsAt (hA : A.Represents h) (ht : A.positions.get? t = some i) {j : Nat} :
    j ∈ A.ancestorsAt i ↔ ∃ u ∈ h.ancestors t, A.nameAt j = some u := by
  obtain ⟨n, hmem, hn, rfl⟩ := hA.node ht
  rw [ancestorsAt, hn]
  exact hA.ancestors n hmem j

theorem isCompatible_eq (hA : A.Represents h) (s p : String) :
    A.isCompatible s p = h.isCompatible s p := by
  have hknown {u : String} (hu : A.positions.get? u = none) :
      u ∉ h.declared.map TypeDecl.name := by
    rw [← TypeHierarchy.contains_iff, hA.contains_iff, hu]
    rintro ⟨_, ⟨⟩⟩
  unfold isCompatible
  rw [Bool.eq_iff_iff, TypeHierarchy.isCompatible_iff]
  split
  · next i j hs hp =>
    rw [decide_eq_true_iff, hA.mem_ancestorsAt hs, (hA.positions p j).mp hp]
    constructor
    · rintro ⟨_, hu, ⟨⟩⟩
      exact hu
    · exact fun hp => ⟨p, hp, rfl⟩
  · next hnone =>
    refine iff_of_false (by decide) fun hp => ?_
    cases hs : A.positions.get? s with
    | none =>
      rw [TypeHierarchy.chain_eq_nil (hknown hs)] at hp
      cases hp
    | some i =>
      cases hp' : A.positions.get? p with
      | none => exact hknown hp' (TypeHierarchy.mem_names_of_mem_chain hp)
      | some j => exact hnone i j hs hp'

theorem parent?_eq (hA : A.Represents h) (t : String) : A.parent? t = h.parent? t := by
  unfold parent?
  cases ht : A.positions.get? t with
  | none =>
    refine (Option.eq_none_iff_forall_ne_some.mpr fun p hp => ?_).symm
    obtain ⟨d, hd, rfl, _⟩ := TypeHierarchy.exists_decl_of_extends hp
    obtain ⟨i, hi⟩ := hA.contains_iff.mp (TypeHierarchy.contains_iff.mpr (List.mem_map_of_mem hd))
    rw [ht] at hi
    cases hi
  | some i =>
    obtain ⟨n, hmem, hn, rfl⟩ := hA.node ht
    have hrel := hA.parents n hmem
    rw [Option.bind_eq_bind, Option.bind_some, hn, Option.bind_eq_bind, Option.bind_some]
    generalize n.parent = above at hrel
    generalize h.parent? n.name = parent at hrel
    cases hrel with
    | some hp => exact hp
    | none => rfl

theorem empty : TypeArena.empty.Represents .empty where
  names := rfl
  positions t i := by
    rw [TypeArena.empty, SortedMap.get?_empty]
    exact iff_of_false nofun nofun
  parents := nofun
  ancestors := nofun

/-! ## Declarations -/

section Push

variable {parent : Option String} {above : Option Nat} {inherited : Finset Nat}

/-- A new name is at no position. -/
theorem nameAt_ne (hA : A.Represents h) (hnew : h.contains name = false) (i : Nat) :
    A.nameAt i ≠ some name := fun hi => by
  rw [hA.contains_iff.mpr ⟨i, (hA.positions name i).mpr hi⟩] at hnew
  cases hnew

theorem name_ne (hA : A.Represents h) (hnew : h.contains name = false) {n : TypeNode}
    (hn : n ∈ A.nodes) : name ≠ n.name := by
  rintro rfl
  obtain ⟨i, hi⟩ := List.mem_iff_getElem?.mp hn
  exact hA.nameAt_ne hnew i (Option.map_eq_some_iff.mpr ⟨n, hi, rfl⟩)

/-- Positions keep their names. -/
theorem rel_push {i? : Option Nat} {p? : Option String}
    (hrel : Option.Rel (fun i p => A.nameAt i = some p) i? p?) :
    Option.Rel (fun i p => (A.push name above inherited).nameAt i = some p) i? p? := by
  cases hrel with
  | some hp => exact .some (nameAt_push.mpr (.inl hp))
  | none => exact .none

/-- The types there are keep their ancestors, because the new name is not among these. -/
theorem mem_ancestors_push (hA : A.Represents h) (hnew : h.contains name = false) {n : TypeNode}
    (hn : n ∈ A.nodes) :
    i ∈ n.ancestors ↔ ∃ u ∈ TypeHierarchy.chain (⟨name, parent⟩ :: h.declared) n.name,
      (A.push name above inherited).nameAt i = some u := by
  rw [TypeHierarchy.chain_cons_of_ne (hA.name_ne hnew hn), hA.ancestors n hn]
  refine exists_congr fun u => and_congr_right fun hu => ?_
  rw [nameAt_push, or_iff_left]
  rintro ⟨_, rfl⟩
  rw [TypeHierarchy.contains_iff.mpr (TypeHierarchy.mem_names_of_mem_chain hu)] at hnew
  cases hnew

/-- The ancestors of the new type are its own position and those it inherits from its parent. -/
theorem mem_insert_push (hA : A.Represents h) (hnew : h.contains name = false)
    (hinherited : ∀ i, i ∈ inherited ↔
      ∃ p, parent = some p ∧ ∃ u ∈ h.ancestors p, A.nameAt i = some u) :
    i ∈ insert A.nodes.length inherited ↔
      ∃ u ∈ TypeHierarchy.chain (⟨name, parent⟩ :: h.declared) name,
        (A.push name above inherited).nameAt i = some u := by
  have hchain (u : String) : u ∈ TypeHierarchy.chain (⟨name, parent⟩ :: h.declared) name ↔
      u = name ∨ ∃ p, parent = some p ∧ u ∈ h.ancestors p := TypeHierarchy.mem_chain_cons_self
  rw [Finset.mem_insert, hinherited]
  constructor
  · rintro (rfl | ⟨p, hp, u, hu, hi⟩)
    · exact ⟨name, (hchain name).mpr (.inl rfl), nameAt_push.mpr (.inr ⟨rfl, rfl⟩)⟩
    · exact ⟨u, (hchain u).mpr (.inr ⟨p, hp, hu⟩), nameAt_push.mpr (.inl hi)⟩
  · rintro ⟨u, hu, hi⟩
    rcases nameAt_push.mp hi with hold | ⟨rfl, _⟩
    · rcases (hchain u).mp hu with rfl | ⟨p, hp, hu⟩
      · exact absurd hold (hA.nameAt_ne hnew i)
      · exact .inr ⟨p, hp, u, hu, hold⟩
    · exact .inl rfl

/-- A new type whose parent and inherited ancestors are given by their positions. -/
theorem push (hA : A.Represents h) (hnew : h.contains name = false)
    (habove : Option.Rel (fun i p => A.nameAt i = some p) above parent)
    (hinherited : ∀ i, i ∈ inherited ↔
      ∃ p, parent = some p ∧ ∃ u ∈ h.ancestors p, A.nameAt i = some u) :
    (A.push name above inherited).Represents ⟨⟨name, parent⟩ :: h.declared⟩ := by
  refine ⟨?names, fun t i => ?positions, fun n hn => ?parents, fun n hn i => ?ancestors⟩
  case names =>
    rw [TypeHierarchy.names_cons, TypeArena.push, List.map_append, hA.names]
    rfl
  case positions =>
    rw [nameAt_push, TypeArena.push]
    by_cases ht : t = name
    · subst ht
      rw [SortedMap.get?_insert_self, or_iff_right (hA.nameAt_ne hnew i), Option.some_inj,
        and_iff_left rfl, eq_comm]
    · rw [SortedMap.get?_insert_of_ne _ ht, hA.positions, or_iff_left fun hi => ht hi.2]
  case parents =>
    rcases List.mem_append.mp hn with hn | hn
    · rw [TypeHierarchy.parent?_cons_of_ne (hA.name_ne hnew hn)]
      exact rel_push (hA.parents n hn)
    · obtain rfl := List.mem_singleton.mp hn
      exact rel_push (TypeHierarchy.parent?_cons_self ▸ habove)
  case ancestors =>
    rcases List.mem_append.mp hn with hn | hn
    · exact hA.mem_ancestors_push hnew hn
    · obtain rfl := List.mem_singleton.mp hn
      exact hA.mem_insert_push hnew hinherited

end Push

/-- An arena and a hierarchy accept a declaration and stay in step, or both refuse it. -/
theorem declare (hA : A.Represents h) (name : String) (parent : Option String) :
    (∃ A' h', A.declare name parent = .ok A' ∧ h.declare name parent = .ok h' ∧
        A'.Represents h') ∨
      ∃ err, A.declare name parent = .error err ∧ h.declare name parent = .error err := by
  unfold TypeArena.declare TypeHierarchy.declare
  cases hcontains : h.contains name with
  | true =>
    obtain ⟨i, hi⟩ := hA.contains_iff.mp hcontains
    rw [hi]
    exact .inr ⟨_, rfl, rfl⟩
  | false =>
    have hnone : A.positions.get? name = none := by
      by_contra hsome
      rw [hA.contains_iff.mpr (Option.ne_none_iff_exists'.mp hsome)] at hcontains
      cases hcontains
    rw [hnone]
    cases parent with
    | none =>
      refine .inl ⟨_, _, rfl, rfl, hA.push hcontains .none fun i => ?_⟩
      exact iff_of_false (Finset.notMem_empty i) nofun
    | some p =>
      cases hp : A.positions.get? p with
      | none =>
        have hunknown : h.contains p = false := by
          rw [Bool.eq_false_iff, Ne, hA.contains_iff, hp]
          rintro ⟨_, ⟨⟩⟩
        refine .inr ⟨.unknownType p, ?_, ?_⟩
        · simp [position, hp]
        · simp [hunknown]
      | some i =>
        have hknown : h.contains p = true := hA.contains_iff.mpr ⟨i, hp⟩
        refine .inl ⟨A.push name (some i) (A.ancestorsAt i), ⟨⟨name, some p⟩ :: h.declared⟩, ?_, ?_,
          hA.push hcontains (.some ((hA.positions p i).mp hp)) fun j => ?_⟩
        · simp [position, hp]
        · simp [hknown]
        · rw [hA.mem_ancestorsAt hp]
          constructor
          · exact fun hu => ⟨p, rfl, hu⟩
          · rintro ⟨_, ⟨⟩, hu⟩
            exact hu

theorem attempt (hA : A.Represents h) (d : TypeDecl) : (A.attempt d).Represents (h.attempt d) := by
  unfold TypeArena.attempt TypeHierarchy.attempt
  rcases hA.declare d.name d.parent with ⟨A', h', hA', hh', hstep⟩ | ⟨err, herr, herr'⟩
  · rw [hA', hh']
    exact hstep
  · rw [herr, herr']
    exact hA

end Represents

/-- The same declarations lead to an arena and to the hierarchy that it represents. -/
theorem represents_declareAll (ds : List TypeDecl) :
    (declareAll ds).Represents (.declareAll ds) := by
  induction ds using List.reverseRecOn with
  | nil => exact .empty
  | append_singleton ds d ih =>
    rw [declareAll, TypeHierarchy.declareAll, List.foldl_concat, List.foldl_concat]
    exact ih.attempt d

/-- After any sequence of declarations, accepted or refused, compatibility is the order that the
parents generate. Ancestor sets made at declaration give the same answers, and the same parents. -/
theorem declareAll_subtypeOrder (ds : List TypeDecl) :
    (TypeHierarchy.declareAll ds).IsSubtypeOrder ∧
      ∀ s p, (declareAll ds).isCompatible s p = (TypeHierarchy.declareAll ds).isCompatible s p ∧
        (declareAll ds).parent? s = (TypeHierarchy.declareAll ds).parent? s := by
  have hA := represents_declareAll ds
  exact ⟨(TypeHierarchy.inOrder_declareAll ds).isSubtypeOrder,
    fun s p => ⟨hA.isCompatible_eq s p, hA.parent?_eq s⟩⟩

/-- A plane is refused for want of aircraft, and so is a second truck: the truck stays a vehicle. -/
example :
    let A := declareAll [⟨"locatable", none⟩, ⟨"location", none⟩, ⟨"vehicle", some "locatable"⟩,
      ⟨"truck", some "vehicle"⟩, ⟨"package", some "locatable"⟩, ⟨"plane", some "aircraft"⟩,
      ⟨"truck", none⟩]
    A.isCompatible "truck" "locatable" = true ∧ A.isCompatible "vehicle" "truck" = false ∧
      A.isCompatible "package" "vehicle" = false ∧ A.isCompatible "plane" "plane" = false ∧
      A.parent? "truck" = some "vehicle" := by
  decide +kernel

end TypeArena

end LiftedPlanning
