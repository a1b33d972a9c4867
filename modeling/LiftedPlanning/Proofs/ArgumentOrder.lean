import LiftedPlanning.Proofs.StepOrder
import LiftedPlanning.Proofs.WellFormedness

/-!
# Enumerating what is accepted

Grounding and search list the argument lists of an action; validation checks those it is given. In
a built problem both speak of the same argument lists (`Vocabulary.bindings_iff_accepted`): the
enumeration has each accepted list once, in the order in which the objects were declared.
-/

namespace LiftedPlanning

/-- There are no tuples only if a domain is empty. -/
theorem tuples_eq_nil_iff {α : Type} {ds : List (List α)} : tuples ds = [] ↔ [] ∈ ds := by
  refine ⟨fun h => ?_, tuples_eq_nil_of_mem⟩
  induction ds with
  | nil => cases h
  | cons d ds ih =>
    cases d with
    | nil => exact List.mem_cons_self
    | cons x d =>
      rw [tuples, List.flatMap_cons, List.append_eq_nil_iff, List.map_eq_nil_iff] at h
      exact List.mem_cons_of_mem _ (ih h.1)

namespace Vocabulary

variable {V : Vocabulary} {params : List Parameter}

theorem bindings_eq_ok {argss : List (List String)} :
    V.bindings params = .ok argss ↔ ∃ ds, V.domains params = .ok ds ∧ argss = tuples ds := by
  rw [bindings, bind_eq_ok]
  refine exists_congr fun ds => and_congr_right fun _ => ?_
  rw [listTuples_eq]
  exact ⟨fun h => (Except.ok.inj h).symm, fun h => congrArg Except.ok h.symm⟩

/-- A domain is empty if no object is of a type that fits. -/
theorem domain_eq_nil_iff {p : Parameter} {d : List String} (h : V.domain p = .ok d) :
    d = [] ↔ ∀ o ∈ V.objects, V.types.isCompatible o.type p.type = false := by
  rw [domain_eq_ok h, List.map_eq_nil_iff, List.filter_eq_nil_iff]
  simp only [Bool.not_eq_true]

theorem nil_mem_domains_iff {ds : List (List String)} (h : V.domains params = .ok ds) :
    [] ∈ ds ↔
      ∃ p ∈ params, ∀ o ∈ V.objects, V.types.isCompatible o.type p.type = false := by
  constructor
  · intro hnil
    obtain ⟨p, hp, hd⟩ := exists_of_mem_mapM h hnil
    exact ⟨p, hp, (domain_eq_nil_iff hd).mp rfl⟩
  · rintro ⟨p, hp, hnone⟩
    obtain ⟨d, hd, hdomain⟩ := exists_mem_of_mapM h hp
    rwa [(domain_eq_nil_iff hdomain).mpr hnone] at hd

open Examples

/-- In a built problem parameters of declared types have an enumeration of argument lists. It has no
list twice and is ordered by the positions of the objects, compared from the left. The lists are
those that are accepted for an action with these parameters: the empty one alone if there are no
parameters, and none if no object fits one of them, but only then. -/
theorem bindings_iff_accepted {P : Problem} (hP : P.Built) (hparams : P.Declares params) :
    ∃ argss, P.bindings params = .ok argss ∧ argss.Nodup ∧
      argss.Pairwise (fun xs ys => P.positions xs < P.positions ys) ∧
      (∀ (a : Action) (args : List String), a.parameters = params →
        (args ∈ argss ↔ P.checkArguments a args = .ok ())) ∧
      (params = [] → argss = [[]]) ∧
      (argss = [] ↔
        ∃ p ∈ params, ∀ o ∈ P.objects, P.types.isCompatible o.type p.type = false) := by
  obtain ⟨ds, hds⟩ := domains_of_declares hparams
  have hobjects := hP.namesDistinct.objects
  refine ⟨tuples ds, bindings_eq_ok.mpr ⟨ds, hds, rfl⟩, nodup_tuples_domains hobjects hds,
    tuples_domains_ordered hobjects hds, ?_, ?_, ?_⟩
  · rintro a args rfl
    exact mem_tuples_domains hobjects hds
  · rintro rfl
    cases hds
    rfl
  · exact tuples_eq_nil_iff.trans (nil_mem_domains_iff hds)

theorem bindings_iff_accepted_depot :
    let params : List Parameter := [⟨"x", "thing"⟩, ⟨"y", "vehicle"⟩]
    ∃ argss, depot.bindings params = .ok argss ∧ argss.Nodup ∧
      argss.Pairwise (fun xs ys => depot.positions xs < depot.positions ys) ∧
      ["crate", "truck"] ∈ argss ∧ ["truck", "crate"] ∉ argss ∧ argss ≠ [] := by
  intro params
  have hparams : depot.Declares params := by
    unfold Declares
    decide +kernel
  obtain ⟨argss, hargss, hnodup, hordered, haccepted, _, _⟩ :=
    bindings_iff_accepted depot_built hparams
  have hmem : ["crate", "truck"] ∈ argss :=
    (haccepted ⟨"load", params, [], []⟩ _ rfl).mpr (by decide +kernel)
  refine ⟨argss, hargss, hnodup, hordered, hmem, ?_, List.ne_nil_of_mem hmem⟩
  rw [haccepted ⟨"load", params, [], []⟩ _ rfl]
  decide +kernel

end Vocabulary

end LiftedPlanning
