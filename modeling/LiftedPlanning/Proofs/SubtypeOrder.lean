import LiftedPlanning.Proofs.Subtypes
import Mathlib.Data.List.Induction
import Mathlib.Logic.Relation

/-!
# The order of types

A type extends its parent, and compatibility is what this generates: a type is compatible with
those that are reached from it along parents (`TypeHierarchy.InOrder.isCompatible_iff_reaches`).
Parents are declared earlier, so the way up does not turn back, and a type has one parent, so it
does not branch. This makes compatibility an order in which the supertypes of a type form a chain
(`TypeHierarchy.InOrder.isSubtypeOrder`).
-/

namespace LiftedPlanning.TypeHierarchy

open Relation

/-- The second type is the parent of the first. -/
def Extends (h : TypeHierarchy) (t p : String) : Prop := h.parent? t = some p

/-! ## Following parents -/

section Parents

variable {d : TypeDecl} {ds : List TypeDecl} {t u p : String}

theorem parent?_cons_self : parent? ⟨d :: ds⟩ d.name = d.parent := by
  simp [parent?, find?]

theorem parent?_cons_of_ne (h : d.name ≠ t) : parent? ⟨d :: ds⟩ t = parent? ⟨ds⟩ t := by
  simp [parent?, find?, h]

/-- A type with a parent is declared. -/
theorem exists_decl_of_extends {h : TypeHierarchy} (hp : h.Extends t p) :
    ∃ d ∈ h.declared, d.name = t ∧ d.parent = some p := by
  obtain ⟨d, hd, hparent⟩ := Option.bind_eq_some_iff.mp hp
  exact ⟨d, List.mem_of_find?_eq_some hd, by simpa using List.find?_some hd, hparent⟩

theorem mem_chain_self (h : t ∈ ds.map TypeDecl.name) : t ∈ chain ds t := by
  induction ds with
  | nil => cases h
  | cons d ds ih =>
    by_cases hd : d.name = t
    · subst hd
      exact mem_chain_cons_self.mpr (.inl rfl)
    · rw [chain_cons_of_ne hd]
      rw [List.map_cons, List.mem_cons] at h
      exact ih (h.resolve_left (Ne.symm hd))

namespace Ordered

/-- A new type does not change the parents of the types there are. -/
theorem extends_cons (h : Ordered (d :: ds)) (hp : Extends ⟨ds⟩ t p) : Extends ⟨d :: ds⟩ t p := by
  obtain ⟨e, he, rfl, _⟩ := exists_decl_of_extends hp
  cases h with
  | cons hnew _ _ =>
    have hne : d.name ≠ e.name := fun heq => hnew (heq ▸ List.mem_map_of_mem he)
    exact (parent?_cons_of_ne hne).trans hp

theorem parent_mem_chain (h : Ordered ds) (hp : Extends ⟨ds⟩ t p) : p ∈ chain ds t := by
  induction h with
  | nil => cases hp
  | @cons d ds hnew hparent _ ih =>
    by_cases hd : d.name = t
    · subst hd
      have hp : d.parent = some p := parent?_cons_self.symm.trans hp
      exact mem_chain_cons_self.mpr (.inr ⟨p, hp, mem_chain_self (hparent p hp)⟩)
    · rw [chain_cons_of_ne hd]
      exact ih ((parent?_cons_of_ne hd).symm.trans hp)

/-- The walk to the root meets just the types that are reached along parents. -/
theorem mem_chain_iff_reaches (h : Ordered ds) :
    u ∈ chain ds t ↔ t ∈ ds.map TypeDecl.name ∧ ReflTransGen (Extends ⟨ds⟩) t u := by
  constructor
  · intro hu
    refine ⟨?_, ?_⟩
    · by_contra hmem
      rw [chain_eq_nil hmem] at hu
      cases hu
    · induction h generalizing t with
      | nil => cases hu
      | @cons d ds hnew hparent hds ih =>
        have hkeep : ∀ a b, Extends ⟨ds⟩ a b → Extends ⟨d :: ds⟩ a b :=
          fun _ _ => extends_cons (.cons hnew hparent hds)
        by_cases hd : d.name = t
        · subst hd
          rcases mem_chain_cons_self.mp hu with rfl | ⟨p, hp, hu⟩
          · exact .refl
          · exact .head (parent?_cons_self.trans hp) (ReflTransGen.mono hkeep _ _ (ih hu))
        · rw [chain_cons_of_ne hd] at hu
          exact ReflTransGen.mono hkeep _ _ (ih hu)
  · rintro ⟨ht, hreaches⟩
    induction hreaches with
    | refl => exact mem_chain_self ht
    | tail _ hp ih => exact h.mem_chain_trans ih (h.parent_mem_chain hp)

end Ordered

end Parents

/-! ## Compatibility is an order -/

section Order

variable {h : TypeHierarchy} {s t u p : String}

namespace InOrder

theorem isCompatible_iff_reaches (hh : h.InOrder) :
    h.isCompatible s p = true ↔
      h.contains s = true ∧ h.contains p = true ∧ ReflTransGen h.Extends s p := by
  rw [isCompatible_iff, contains_iff, contains_iff, Ordered.mem_chain_iff_reaches hh]
  refine ⟨fun ⟨hs, hreaches⟩ => ⟨hs, ?_, hreaches⟩, fun ⟨hs, _, hreaches⟩ => ⟨hs, hreaches⟩⟩
  exact mem_names_of_mem_chain ((Ordered.mem_chain_iff_reaches hh).mpr ⟨hs, hreaches⟩)

/-- On the way along parents every type stands before the one it came from. -/
theorem eq_or_idxOf_lt (hh : h.InOrder) (hreaches : ReflTransGen h.Extends s p) :
    p = s ∨ h.names.idxOf p < h.names.idxOf s := by
  induction hreaches with
  | refl => exact .inl rfl
  | tail _ hp ih =>
    obtain ⟨d, hd, rfl, hparent⟩ := exists_decl_of_extends hp
    have hlt := hh.idxOf_parent_lt hd hparent
    rcases ih with rfl | hbefore
    · exact .inr hlt
    · exact .inr (Nat.lt_trans hlt hbefore)

theorem isCompatible_antisymm (hh : h.InOrder) (hst : h.isCompatible s t = true)
    (hts : h.isCompatible t s = true) : s = t := by
  obtain ⟨_, _, hst⟩ := hh.isCompatible_iff_reaches.mp hst
  obtain ⟨_, _, hts⟩ := hh.isCompatible_iff_reaches.mp hts
  rcases hh.eq_or_idxOf_lt hst with rfl | hlt
  · rfl
  rcases hh.eq_or_idxOf_lt hts with rfl | hlt'
  · rfl
  · exact absurd hlt' (Nat.lt_asymm hlt)

/-- A type has one parent, so of two of its supertypes one is on the way to the other. -/
theorem isCompatible_total (hh : h.InOrder) (hts : h.isCompatible t s = true)
    (htp : h.isCompatible t p = true) :
    h.isCompatible s p = true ∨ h.isCompatible p s = true := by
  obtain ⟨_, hs, hts⟩ := hh.isCompatible_iff_reaches.mp hts
  obtain ⟨_, hp, htp⟩ := hh.isCompatible_iff_reaches.mp htp
  have hunique : Relator.RightUnique h.Extends := fun _ _ _ ha hb =>
    Option.some.inj (ha.symm.trans hb)
  rcases hts.total_of_right_unique hunique htp with hsp | hps
  · exact .inl (hh.isCompatible_iff_reaches.mpr ⟨hs, hp, hsp⟩)
  · exact .inr (hh.isCompatible_iff_reaches.mpr ⟨hp, hs, hps⟩)

end InOrder

end Order

/-! ## Sequences of declarations -/

/-- The hierarchy after a declaration, which stays as it was if the declaration is refused. -/
def attempt (h : TypeHierarchy) (d : TypeDecl) : TypeHierarchy :=
  match h.declare d.name d.parent with
  | .ok h' => h'
  | .error _ => h

def declareAll (ds : List TypeDecl) : TypeHierarchy := ds.foldl attempt empty

variable {h : TypeHierarchy} {s p : String}

theorem InOrder.attempt (hh : h.InOrder) (d : TypeDecl) : (h.attempt d).InOrder := by
  unfold TypeHierarchy.attempt
  split
  · next h' hdeclare => exact hh.declare hdeclare
  · exact hh

theorem inOrder_declareAll (ds : List TypeDecl) : (declareAll ds).InOrder := by
  induction ds using List.reverseRecOn with
  | nil => exact .nil
  | append_singleton ds d ih =>
    rw [declareAll, List.foldl_concat]
    exact ih.attempt d

/-- The supertypes of a declared type are settled. -/
theorem isCompatible_attempt (d : TypeDecl) (hs : h.contains s = true) :
    (h.attempt d).isCompatible s p = h.isCompatible s p := by
  unfold attempt
  split
  · next h' hdeclare =>
    obtain ⟨hnew, _, rfl⟩ := declare_eq_ok hdeclare
    have hne : d.name ≠ s := by
      rintro rfl
      exact hnew (contains_iff.mp hs)
    rw [isCompatible, ancestors, chain_cons_of_ne hne]
    rfl
  · rfl

/-- Compatibility is the order generated by the parents: on declared types it is reflexive,
transitive and antisymmetric, the supertypes of a type form a chain, and no further declaration
changes it for the types there are. -/
structure IsSubtypeOrder (h : TypeHierarchy) : Prop where
  compatible_iff : ∀ s p, h.isCompatible s p = true ↔
    h.contains s = true ∧ h.contains p = true ∧ ReflTransGen h.Extends s p
  refl : ∀ t, h.contains t = true → h.isCompatible t t = true
  trans : ∀ s t u, h.isCompatible s t = true → h.isCompatible t u = true →
    h.isCompatible s u = true
  antisymm : ∀ s t, h.isCompatible s t = true → h.isCompatible t s = true → s = t
  total : ∀ t s p, h.isCompatible t s = true → h.isCompatible t p = true →
    h.isCompatible s p = true ∨ h.isCompatible p s = true
  stable : ∀ d s p, h.contains s = true → h.contains p = true →
    (h.attempt d).isCompatible s p = h.isCompatible s p

theorem InOrder.isSubtypeOrder (hh : h.InOrder) : h.IsSubtypeOrder where
  compatible_iff _ _ := hh.isCompatible_iff_reaches
  refl _ ht := isCompatible_iff.mpr (mem_chain_self (contains_iff.mp ht))
  trans _ _ _ := hh.isCompatible_trans
  antisymm _ _ := hh.isCompatible_antisymm
  total _ _ _ := hh.isCompatible_total
  stable d _ _ hs _ := isCompatible_attempt d hs

end LiftedPlanning.TypeHierarchy
