import LiftedPlanning.Problem.Features
import LiftedPlanning.Proofs.Groundness

/-!
# What the kind of a problem shows

Engines accept a problem by its kind alone. A quantifier in a precondition, in the condition of an
effect or in a goal shows in the kind, however deep it is, and nothing else makes the kind show it
(`Problem.kind_quantifiers`). So an engine that handles no quantifiers meets none in these places.

The value of an effect is no condition. The kind says nothing about it, and it is the one place in
an action where such an engine can still come upon a quantifier
(`Problem.kind_hides_value_quantifier`).
-/

namespace LiftedPlanning

def Quantifier.feature : Quantifier → Feature
  | .universal => .universalConditions
  | .existential => .existentialConditions

/-! ## Features of a condition -/

namespace Expr

variable {e : Expr} {q : Quantifier} {f : Feature}

/-- The quantifier occurs in the expression, at any depth. -/
def Mentions (q : Quantifier) (e : Expr) : Prop :=
  ∃ vars body, .quantified q vars body ∈ e.subexpressions

theorem mem_features : f ∈ e.features ↔ ∃ d ∈ e.subexpressions, d.feature? = some f :=
  List.mem_filterMap

/-- Only the quantifier itself has the feature of a quantifier. -/
theorem feature?_eq_feature :
    e.feature? = some q.feature ↔ ∃ vars body, e = .quantified q vars body := by
  constructor
  · intro h
    unfold feature? at h
    split at h <;> cases q <;> first | exact ⟨_, _, rfl⟩ | cases h
  · rintro ⟨vars, body, rfl⟩
    cases q <;> rfl

theorem isMetric_of_feature? (h : e.feature? = some f) : f.isMetric = false := by
  unfold feature? at h
  split at h <;> cases h <;> rfl

theorem feature_mem_features : q.feature ∈ e.features ↔ e.Mentions q := by
  rw [mem_features]
  constructor
  · rintro ⟨d, hd, hfeature⟩
    obtain ⟨vars, body, rfl⟩ := feature?_eq_feature.mp hfeature
    exact ⟨vars, body, hd⟩
  · rintro ⟨vars, body, hd⟩
    exact ⟨_, hd, feature?_eq_feature.mpr ⟨vars, body, rfl⟩⟩

theorem hasQuantifier_eq_false : e.hasQuantifier = false ↔ ∀ q, ¬ e.Mentions q := by
  rw [hasQuantifier, List.any_eq_false]
  constructor
  · rintro h q ⟨vars, body, hd⟩
    exact h _ hd rfl
  · intro h d hd hquantifier
    cases d with
    | quantified q vars body => exact h q ⟨vars, body, hd⟩
    | _ => cases hquantifier

end Expr

/-! ## Features of a problem -/

theorem Effect.mem_features {e : Effect} {f : Feature} :
    f ∈ e.features ↔ (f = .conditionalEffects ∧ e.isConditional = true) ∨
      (f = .increaseEffects ∧ e.kind = .increase) ∨
      (f = .decreaseEffects ∧ e.kind = .decrease) := by
  cases hkind : e.kind <;> cases hconditional : e.isConditional <;>
    simp [features, hkind, hconditional]

namespace Problem

variable {P : Problem} {q : Quantifier} {f : Feature}

theorem mem_conditions {c : Expr} : c ∈ P.conditions ↔
    (∃ a ∈ P.actions, c ∈ a.preconditions ∨ ∃ e ∈ a.effects, e.condition = c) ∨ c ∈ P.goals := by
  simp [conditions]

theorem forall_mem_conditions {p : Expr → Prop} : (∀ c ∈ P.conditions, p c) ↔
    (∀ a ∈ P.actions, (∀ e ∈ a.preconditions, p e) ∧ ∀ e ∈ a.effects, p e.condition) ∧
      ∀ g ∈ P.goals, p g := by
  constructor
  · intro h
    refine ⟨fun a ha => ⟨fun e he => ?_, fun e he => ?_⟩, fun g hg => ?_⟩
    · exact h e (mem_conditions.mpr (.inl ⟨a, ha, .inl he⟩))
    · exact h e.condition (mem_conditions.mpr (.inl ⟨a, ha, .inr ⟨e, he, rfl⟩⟩))
    · exact h g (mem_conditions.mpr (.inr hg))
  · rintro ⟨hactions, hgoals⟩ c hc
    rcases mem_conditions.mp hc with ⟨a, ha, hpre | ⟨e, he, rfl⟩⟩ | hgoal
    · exact (hactions a ha).1 c hpre
    · exact (hactions a ha).2 e he
    · exact hgoals c hgoal

theorem mem_effects {e : Effect} : e ∈ P.effects ↔ ∃ a ∈ P.actions, e ∈ a.effects :=
  List.mem_flatMap

theorem mem_declarationFeatures_cases (h : f ∈ P.declarationFeatures) :
    f = .flatTyping ∨ f = .hierarchicalTyping ∨ f = .numericFluents := by
  have hone {p : Prop} [Decidable p] {g : Feature} (h : f ∈ if p then [g] else []) : f = g := by
    split at h
    · exact List.mem_singleton.mp h
    · cases h
  have hnone {p : Prop} [Decidable p] {g : Feature} (h : f ∈ if p then [] else [g]) : f = g := by
    split at h
    · cases h
    · exact List.mem_singleton.mp h
  rcases List.mem_append.mp h with h | h
  · rcases List.mem_append.mp h with h | h
    · exact .inl (hnone h)
    · exact .inr (.inl (hone h))
  · exact .inr (.inr (hone h))

/-- Where the features of a problem come from. -/
theorem has_kind : P.kind.has f = true ↔
    f = .actionBased ∨ f ∈ P.declarationFeatures ∨ (∃ c ∈ P.conditions, f ∈ c.features) ∨
      (∃ e ∈ P.effects, f ∈ e.features) ∨ f ∈ P.metrics.map QualityMetric.feature := by
  simp [kind, ProblemKind.ofList]

/-- A feature of metrics is one of a metric that the problem has. -/
theorem has_metric (hf : f.isMetric = true) :
    P.kind.has f = true ↔ f ∈ P.metrics.map QualityMetric.feature := by
  rw [has_kind]
  constructor
  · rintro (rfl | hdeclared | ⟨c, _, hcondition⟩ | ⟨e, _, heffect⟩ | hmetric)
    · cases hf
    · rcases mem_declarationFeatures_cases hdeclared with rfl | rfl | rfl <;> cases hf
    · obtain ⟨d, _, hfeature⟩ := Expr.mem_features.mp hcondition
      rw [Expr.isMetric_of_feature? hfeature] at hf
      cases hf
    · rcases Effect.mem_features.mp heffect with ⟨rfl, _⟩ | ⟨rfl, _⟩ | ⟨rfl, _⟩ <;> cases hf
    · exact hmetric
  · exact fun hmetric => .inr (.inr (.inr (.inr hmetric)))

/-- A quantifier shows in the kind exactly if some condition mentions it. -/
theorem has_quantifier : P.kind.has q.feature = true ↔ ∃ c ∈ P.conditions, c.Mentions q := by
  rw [has_kind]
  constructor
  · rintro (hbase | hdeclared | ⟨c, hc, hfeature⟩ | ⟨e, _, heffect⟩ | hmetric)
    · cases q <;> cases hbase
    · rcases mem_declarationFeatures_cases hdeclared with h | h | h <;> cases q <;> cases h
    · exact ⟨c, hc, Expr.feature_mem_features.mp hfeature⟩
    · rcases Effect.mem_features.mp heffect with ⟨h, _⟩ | ⟨h, _⟩ | ⟨h, _⟩ <;> cases q <;> cases h
    · obtain ⟨m, _, hm⟩ := List.mem_map.mp hmetric
      cases q <;> cases m <;> cases hm
  · rintro ⟨c, hc, hmentions⟩
    exact .inr (.inr (.inl ⟨c, hc, Expr.feature_mem_features.mpr hmentions⟩))

end Problem

/-! ## What an engine can meet -/

theorem Capabilities.supports_iff {c : Capabilities} {k : ProblemKind} :
    c.supports k = true ↔ ∀ f, k.has f = true → c.supported.has f = true := by
  simp [supports, ProblemKind.isSubset]

/-- The arguments of a fluent are variables and objects, so there is no quantifier among them. -/
theorem Vocabulary.Typed.hasQuantifier_fluent {V : Vocabulary} {scope : Scope} {f : String}
    {args : List Expr} (h : V.Typed scope (.fluent f args)) :
    (Expr.fluent f args).hasQuantifier = false := by
  have hargs : ∀ a ∈ args, a.Within fun _ => True := by
    intro a ha
    cases h with
    | fluent _ hfits =>
      obtain ⟨p, _, hfit⟩ := exists_left_of_forall₂ hfits ha
      cases hfit with
      | var _ _ => exact Expr.within_var trivial
      | object _ => exact Expr.within_const _
  exact (Expr.within_fluent.mpr hargs).hasQuantifier

/-- Without quantifiers, except that the values of effects may have some. -/
structure Action.QuantifierFreeButValues (a : Action) : Prop where
  preconditions : ∀ e ∈ a.preconditions, e.hasQuantifier = false
  targets : ∀ f ∈ a.effects, f.target.hasQuantifier = false
  conditions : ∀ f ∈ a.effects, f.condition.hasQuantifier = false

namespace Examples

/-- Lamps can be switched on, and an inspection writes down whether all of them are on. The
quantifier is in the value of an effect. -/
def inspection : Problem :=
  let lamp (x : String) : Parameter := ⟨x, "lamp"⟩
  .build "inspection" [
    .addType "lamp" none,
    .addObjects ["a", "b"] "lamp",
    .addFluent (.predicate "lit" [lamp "x"]),
    .addFluent (.predicate "bright" []),
    .addAction ⟨"switch", [lamp "x"], [], [makes "lit" [v "x"] true]⟩,
    .addAction ⟨"inspect", [], [],
      [.always "bright" [] .assign (.quantified .universal [lamp "x"] (.fluent "lit" [v "x"]))]⟩,
    .addGoal (.fluent "bright" [])]

theorem inspection_built : inspection.Built := ⟨_, _, rfl⟩

def unquantified : Capabilities :=
  .ofKind (ProblemKind.all.without [.universalConditions, .existentialConditions])

theorem unquantified_lacks (q : Quantifier) : unquantified.supported.has q.feature = false := by
  cases q <;> rfl

end Examples

namespace Problem

open Examples

variable {P : Problem}

/-- The kind of a problem lacks the feature of a quantifier exactly if no precondition, condition of
an effect or goal mentions the quantifier at any depth. So an engine that handles neither quantifier
and accepts a problem meets none in goals, and in actions only in the values of effects. -/
theorem kind_quantifiers (hP : P.Built) :
    (∀ q : Quantifier, P.kind.has q.feature = false ↔
      (∀ a ∈ P.actions, (∀ e ∈ a.preconditions, ¬ e.Mentions q) ∧
        ∀ f ∈ a.effects, ¬ f.condition.Mentions q) ∧
      ∀ g ∈ P.goals, ¬ g.Mentions q) ∧
    ∀ c : Capabilities, (∀ q : Quantifier, c.supported.has q.feature = false) →
      c.supports P.kind = true →
        (∀ a ∈ P.actions, a.QuantifierFreeButValues) ∧ ∀ g ∈ P.goals, g.hasQuantifier = false := by
  have hlacks (q : Quantifier) :
      P.kind.has q.feature = false ↔ ∀ c ∈ P.conditions, ¬ c.Mentions q := by
    rw [Bool.eq_false_iff, Ne, has_quantifier, not_exists]
    exact forall_congr' fun c => not_and
  constructor
  · intro q
    rw [hlacks, forall_mem_conditions]
  · intro c hc hsupports
    have hfree : ∀ e ∈ P.conditions, e.hasQuantifier = false := by
      intro e he
      refine Expr.hasQuantifier_eq_false.mpr fun q => (hlacks q).mp ?_ e he
      -- what the kind had, the engine would have to handle
      by_contra hhas
      have hsupported := Capabilities.supports_iff.mp hsupports _ (Bool.not_eq_false _ ▸ hhas)
      rw [hc q] at hsupported
      cases hsupported
    obtain ⟨hactions, hgoals⟩ := forall_mem_conditions.mp hfree
    refine ⟨fun a ha => ⟨(hactions a ha).1, fun f hf => ?_, (hactions a ha).2⟩, hgoals⟩
    exact ((hP.wellTyped.actions a ha).effects f hf).target.hasQuantifier_fluent

/-- The depot has existential quantifiers in a precondition and in a goal, and a universal one in a
metric only. An engine without quantifiers accepts the jugs. -/
theorem kind_quantifiers_depot :
    depot.kind.has .existentialConditions = true ∧ (∀ g ∈ depot.goals, ¬ g.Mentions .universal) ∧
      unquantified.supports jugs.kind = true ∧ ∀ a ∈ jugs.actions, a.QuantifierFreeButValues := by
  have hexistential : depot.kind.has .existentialConditions = true := by decide +kernel
  have huniversal : depot.kind.has .universalConditions = false := by decide +kernel
  have hsupports : unquantified.supports jugs.kind = true := by decide +kernel
  obtain ⟨_, hgoals⟩ := ((kind_quantifiers depot_built).1 .universal).mp huniversal
  obtain ⟨hactions, _⟩ := (kind_quantifiers jugs_built).2 unquantified unquantified_lacks hsupports
  exact ⟨hexistential, hgoals, hsupports, hactions⟩

/-- An engine without quantifiers accepts the inspection all the same, and then has to find out
whether all lamps are on. -/
theorem kind_hides_value_quantifier :
    inspection.Built ∧ inspection.kind.has .universalConditions = false ∧
      (∃ a ∈ inspection.actions, ∃ f ∈ a.effects, f.value.Mentions .universal) ∧
      (∀ q : Quantifier, unquantified.supported.has q.feature = false) ∧
      unquantified.supports inspection.kind = true := by
  have huniversal : inspection.kind.has .universalConditions = false := by decide +kernel
  have hsupports : unquantified.supports inspection.kind = true := by decide +kernel
  have hvalue : ∃ a ∈ inspection.actions, ∃ f ∈ a.effects,
      .universalConditions ∈ f.value.features := by
    decide +kernel
  obtain ⟨a, ha, f, hf, hfeature⟩ := hvalue
  have hmentions : f.value.Mentions .universal := Expr.feature_mem_features.mp hfeature
  exact ⟨inspection_built, huniversal, ⟨a, ha, f, hf, hmentions⟩, unquantified_lacks,
    hsupports⟩

end Problem

end LiftedPlanning
