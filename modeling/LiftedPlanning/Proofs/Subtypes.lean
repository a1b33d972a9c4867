import LiftedPlanning.TypeHierarchy
import Mathlib.Data.List.Nodup

/-!
# Subtypes

Types are declared in order: a name is taken once, and a parent stands before its children
(`TypeHierarchy.InOrder`). Under this invariant, which every declaration keeps, compatibility of
types is transitive (`InOrder.isCompatible_trans`), and declaring one more type changes nothing for
the types there are (`isCompatible_of_declare`).

Both are facts about `chain`, which walks towards older declarations only: the walk from a supertype
is the rest of the walk from the type.
-/

namespace LiftedPlanning.TypeHierarchy

/-- Declarations, newest first, of distinct names with each parent declared before its child. -/
inductive Ordered : List TypeDecl → Prop where
  | nil : Ordered []
  | cons {d : TypeDecl} {ds : List TypeDecl} : d.name ∉ ds.map TypeDecl.name →
      (∀ p, d.parent = some p → p ∈ ds.map TypeDecl.name) → Ordered ds → Ordered (d :: ds)

def InOrder (h : TypeHierarchy) : Prop := Ordered h.declared

/-! ## Chains of supertypes -/

section Chains

variable {d : TypeDecl} {ds : List TypeDecl} {t u w : String}

theorem chain_cons_of_ne (h : d.name ≠ t) : chain (d :: ds) t = chain ds t := by
  rw [chain, if_neg h]

/-- The chain of a type starts with the type and goes on with the chain of its parent. -/
theorem mem_chain_cons_self :
    u ∈ chain (d :: ds) d.name ↔ u = d.name ∨ ∃ p, d.parent = some p ∧ u ∈ chain ds p := by
  rw [chain, if_pos rfl, List.mem_cons]
  cases d.parent <;> simp

/-- Supertypes are declared. -/
theorem mem_names_of_mem_chain (h : u ∈ chain ds t) : u ∈ ds.map TypeDecl.name := by
  induction ds generalizing t with
  | nil => cases h
  | cons d ds ih =>
    rw [List.map_cons, List.mem_cons]
    by_cases hd : d.name = t
    · subst hd
      rcases mem_chain_cons_self.mp h with rfl | ⟨p, _, hu⟩
      · exact .inl rfl
      · exact .inr (ih hu)
    · rw [chain_cons_of_ne hd] at h
      exact .inr (ih h)

theorem chain_eq_nil (h : t ∉ ds.map TypeDecl.name) : chain ds t = [] := by
  induction ds with
  | nil => rfl
  | cons d ds ih =>
    rw [List.map_cons, List.mem_cons, not_or] at h
    rw [chain_cons_of_ne (Ne.symm h.1), ih h.2]

/-- A supertype of a supertype is a supertype. -/
theorem Ordered.mem_chain_trans (h : Ordered ds) (hu : u ∈ chain ds t) (hw : w ∈ chain ds u) :
    w ∈ chain ds t := by
  induction h generalizing t with
  | nil => cases hu
  | @cons d ds hnew _ _ ih =>
    -- a proper supertype is older than `d`, so the walk from it does not meet `d`
    have hskip : ∀ s, u ∈ chain ds s → w ∈ chain ds u := by
      intro s hs
      have hne : d.name ≠ u := by
        rintro rfl
        exact hnew (mem_names_of_mem_chain hs)
      rwa [chain_cons_of_ne hne] at hw
    by_cases hd : d.name = t
    · subst hd
      rcases mem_chain_cons_self.mp hu with rfl | ⟨p, hp, hup⟩
      · exact hw
      · exact mem_chain_cons_self.mpr (.inr ⟨p, hp, ih hup (hskip p hup)⟩)
    · rw [chain_cons_of_ne hd] at hu ⊢
      exact ih hu (hskip t hu)

end Chains

/-! ## Compatibility -/

variable {h h' : TypeHierarchy} {s t u : String}

theorem contains_iff : h.contains t = true ↔ t ∈ h.declared.map TypeDecl.name := by
  rw [contains, List.any_eq_true, List.mem_map]
  simp only [decide_eq_true_eq]

theorem isCompatible_iff : h.isCompatible s t = true ↔ t ∈ chain h.declared s := by
  rw [isCompatible, ancestors, List.contains_iff_mem]

theorem InOrder.isCompatible_trans (hh : h.InOrder) (hst : h.isCompatible s t = true)
    (htu : h.isCompatible t u = true) : h.isCompatible s u = true := by
  rw [isCompatible_iff] at hst htu ⊢
  exact Ordered.mem_chain_trans hh hst htu

/-! ## Declaring one more type -/

theorem declare_eq_ok {name : String} {parent : Option String}
    (hdeclare : h.declare name parent = .ok h') :
    name ∉ h.declared.map TypeDecl.name ∧
      (∀ p, parent = some p → p ∈ h.declared.map TypeDecl.name) ∧
      h' = ⟨⟨name, parent⟩ :: h.declared⟩ := by
  unfold declare at hdeclare
  split at hdeclare
  · cases hdeclare
  · next hnew =>
    rw [contains_iff] at hnew
    cases parent with
    | none =>
      cases hdeclare
      exact ⟨hnew, nofun, rfl⟩
    | some p =>
      dsimp only at hdeclare
      split at hdeclare
      · next hp =>
        cases hdeclare
        refine ⟨hnew, ?_, rfl⟩
        rintro _ ⟨⟩
        exact contains_iff.mp hp
      · cases hdeclare

variable {name : String} {parent : Option String}

theorem InOrder.declare (hh : h.InOrder) (hdeclare : h.declare name parent = .ok h') :
    h'.InOrder := by
  obtain ⟨hnew, hparent, rfl⟩ := declare_eq_ok hdeclare
  exact .cons hnew hparent hh

theorem contains_of_declare (hdeclare : h.declare name parent = .ok h')
    (ht : h.contains t = true) : h'.contains t = true := by
  obtain ⟨_, _, rfl⟩ := declare_eq_ok hdeclare
  rw [contains_iff] at ht ⊢
  exact List.mem_cons_of_mem _ ht

/-- The supertypes of a type stay the same. -/
theorem isCompatible_of_declare (hdeclare : h.declare name parent = .ok h')
    (hst : h.isCompatible s t = true) : h'.isCompatible s t = true := by
  obtain ⟨hnew, _, rfl⟩ := declare_eq_ok hdeclare
  rw [isCompatible_iff] at hst ⊢
  have hne : name ≠ s := by
    rintro rfl
    rw [chain_eq_nil hnew] at hst
    cases hst
  rwa [chain_cons_of_ne hne]

/-! ## Positions -/

theorem names_cons (d : TypeDecl) (ds : List TypeDecl) :
    names ⟨d :: ds⟩ = names ⟨ds⟩ ++ [d.name] := by
  rw [names, List.map_cons, List.reverse_cons, names]

theorem mem_names_iff : t ∈ h.names ↔ t ∈ h.declared.map TypeDecl.name := by
  rw [names, List.mem_reverse]

theorem InOrder.nodup_names (hh : h.InOrder) : h.names.Nodup := by
  obtain ⟨ds⟩ := h
  rw [names, List.nodup_reverse]
  change Ordered ds at hh
  induction hh with
  | nil => exact List.nodup_nil
  | cons hnew _ _ ih => exact List.nodup_cons.mpr ⟨hnew, ih⟩

/-- In the order of declaration a parent stands before its child. -/
theorem InOrder.idxOf_parent_lt (hh : h.InOrder) {d : TypeDecl} (hd : d ∈ h.declared) {p : String}
    (hp : d.parent = some p) : h.names.idxOf p < h.names.idxOf d.name := by
  obtain ⟨ds⟩ := h
  change Ordered ds at hh
  change d ∈ ds at hd
  induction hh with
  | nil => cases hd
  | @cons e ds hnew hparent _ ih =>
    rw [names_cons]
    rcases List.mem_cons.mp hd with rfl | hd
    · -- the newest type stands last, after all names there were
      have hmem : p ∈ names ⟨ds⟩ := mem_names_iff.mpr (hparent p hp)
      have hlast : d.name ∉ names ⟨ds⟩ := fun hmem => hnew (mem_names_iff.mp hmem)
      rw [List.idxOf_append_of_mem hmem, List.idxOf_append_of_notMem hlast]
      exact Nat.lt_add_right _ (List.idxOf_lt_length_iff.mpr hmem)
    · have hlt := ih hd
      have hmem : d.name ∈ names ⟨ds⟩ := mem_names_iff.mpr (List.mem_map_of_mem hd)
      have hpmem : p ∈ names ⟨ds⟩ :=
        List.idxOf_lt_length_iff.mp (Nat.lt_trans hlt (List.idxOf_lt_length_iff.mpr hmem))
      rwa [List.idxOf_append_of_mem hpmem, List.idxOf_append_of_mem hmem]

end LiftedPlanning.TypeHierarchy
