import LiftedPlanning.Proofs.ProblemKinds

/-!
# The kind of a grounding

The kind of a ground problem is read off its own expressions, so what the passes do to an operator
decides which features there can be. The passes are followed with a bound on the operators that are
left (`Expr.UsesOnly`). Substitution brings in constants. Expansion makes a junction of a
quantifier. Folding takes operators away, with one exception: an implication whose conclusion is
false becomes the negation of its premise.

Hence there are two features that a grounding can have and its problem not
(`Grounder.ground_kind`): disjunctions where there were existential quantifiers, and with pruning
negations where there were implications, which count as disjunctions.
-/

namespace LiftedPlanning

namespace Expr

/-! ## Operators -/

namespace Operator

def feature? : Operator → Option Feature
  | not => some .negativeConditions
  | junction .or => some .disjunctiveConditions
  | binary .implies => some .disjunctiveConditions
  | binary .iff => some .disjunctiveConditions
  | binary .equals => some .equalities
  | quantified q => some q.feature
  | _ => none

def expanded : Operator → Operator
  | quantified q => junction q.junction
  | op => op

/-- Folding makes constants, and negations where it finds implications. -/
structure AllowsFolding (allowed : Operator → Prop) : Prop where
  const : allowed .const
  not : allowed (.binary .implies) → allowed .not

/-- The operators that can be left when an expression is ground, with pruning or without. -/
inductive Remains (pruned : Bool) (e : Expr) : Operator → Prop where
  | const : Remains pruned e .const
  | expanded {d : Expr} : d ∈ e.subexpressions → Remains pruned e d.operator.expanded
  | negated {x y : Expr} : pruned = true → .binary .implies x y ∈ e.subexpressions →
      Remains pruned e .not

end Operator

theorem feature?_operator (e : Expr) : e.operator.feature? = e.feature? := by
  cases e with
  | junction op es => cases op <;> rfl
  | binary op x y => cases op <;> rfl
  | quantified q vars body => cases q <;> rfl
  | _ => rfl

def UsesOnly (allowed : Operator → Prop) (e : Expr) : Prop :=
  ∀ d ∈ e.subexpressions, allowed d.operator

variable {allowed allowed' : Operator → Prop} {e : Expr}

theorem usesOnly_iff : e.UsesOnly allowed ↔
    allowed e.operator ∧ ∀ c ∈ e.children, c.UsesOnly allowed := forall_subexpressions_iff

theorem usesOnly_const (h : allowed .const) (v : Value) : (const v).UsesOnly allowed :=
  usesOnly_iff.mpr ⟨h, List.forall_mem_nil _⟩

theorem usesOnly_not : (not e).UsesOnly allowed ↔ allowed .not ∧ e.UsesOnly allowed := by
  rw [usesOnly_iff, children, List.forall_mem_singleton, operator]

theorem usesOnly_quantified {q : Quantifier} {vars : List Parameter} :
    (quantified q vars e).UsesOnly allowed ↔ allowed (.quantified q) ∧ e.UsesOnly allowed := by
  rw [usesOnly_iff, children, List.forall_mem_singleton, operator]

theorem usesOnly_binary {op : BinaryOp} {x y : Expr} : (binary op x y).UsesOnly allowed ↔
    allowed (.binary op) ∧ x.UsesOnly allowed ∧ y.UsesOnly allowed := by
  rw [usesOnly_iff, children, List.forall_mem_cons, List.forall_mem_singleton, operator]

/-! ## Substitution and expansion -/

theorem UsesOnly.substitute (hconst : allowed .const) {b : Binding} (h : e.UsesOnly allowed) :
    (e.substitute b).UsesOnly allowed := by
  induction e generalizing b with
  | const v => exact h
  | var x =>
    rw [Expr.substitute]
    cases b x with
    | some o => exact usesOnly_const hconst (.object o)
    | none => exact h
  | fluent f es ih | junction f es ih | series f es ih =>
    obtain ⟨hself, hes⟩ := usesOnly_iff.mp h
    rw [Expr.substitute, substituteAll_eq]
    exact usesOnly_iff.mpr ⟨hself, List.forall_mem_map.mpr fun e he => ih e he (hes e he)⟩
  | not e ih =>
    obtain ⟨hself, he⟩ := usesOnly_not.mp h
    exact usesOnly_not.mpr ⟨hself, ih he⟩
  | binary op x y ihx ihy =>
    obtain ⟨hself, hx, hy⟩ := usesOnly_binary.mp h
    exact usesOnly_binary.mpr ⟨hself, ihx hx, ihy hy⟩
  | quantified q vars body ih =>
    obtain ⟨hself, hbody⟩ := usesOnly_quantified.mp h
    exact usesOnly_quantified.mpr ⟨hself, ih hbody⟩

theorem UsesOnly.expand {V : Vocabulary} (hconst : allowed' .const)
    (hexpanded : ∀ op, allowed op → allowed' op.expanded) {e' : Expr} (h : e.UsesOnly allowed)
    (he' : V.expand e = .ok e') : e'.UsesOnly allowed' := by
  have hall {es es' : List Expr}
      (ih : ∀ e ∈ es, ∀ {e'}, e.UsesOnly allowed → V.expand e = .ok e' → e'.UsesOnly allowed')
      (hes : ∀ e ∈ es, e.UsesOnly allowed) (hes' : V.expandAll es = .ok es') :
      ∀ e' ∈ es', e'.UsesOnly allowed' := by
    intro e' he'
    rw [Vocabulary.expandAll_eq] at hes'
    obtain ⟨e, he, hexpand⟩ := exists_of_mem_mapM hes' he'
    exact ih e he (hes e he) hexpand
  induction e generalizing e' with
  | const v | var v =>
    cases he'
    exact usesOnly_iff.mpr ⟨hexpanded _ (usesOnly_iff.mp h).1, List.forall_mem_nil _⟩
  | fluent f es ih | junction f es ih | series f es ih =>
    obtain ⟨hself, hes⟩ := usesOnly_iff.mp h
    obtain ⟨es', hes', ⟨⟩⟩ := bind_eq_ok.mp he'
    exact usesOnly_iff.mpr ⟨hexpanded _ hself, hall ih hes hes'⟩
  | not e ih =>
    obtain ⟨hself, he⟩ := usesOnly_not.mp h
    obtain ⟨d, hd, ⟨⟩⟩ := bind_eq_ok.mp he'
    exact usesOnly_not.mpr ⟨hexpanded _ hself, ih he hd⟩
  | binary op x y ihx ihy =>
    obtain ⟨hself, hx, hy⟩ := usesOnly_binary.mp h
    obtain ⟨x', hx', hxy⟩ := bind_eq_ok.mp he'
    obtain ⟨y', hy', ⟨⟩⟩ := bind_eq_ok.mp hxy
    exact usesOnly_binary.mpr ⟨hexpanded _ hself, ihx hx hx', ihy hy hy'⟩
  | quantified q vars body ih =>
    obtain ⟨hself, hbody⟩ := usesOnly_quantified.mp h
    obtain ⟨body', hbody', he'⟩ := bind_eq_ok.mp he'
    rcases Vocabulary.expandBody_cases he' with rfl | ⟨ds, _, rfl⟩
    · exact usesOnly_const hconst _
    · refine usesOnly_iff.mpr ⟨hexpanded _ hself, List.forall_mem_map.mpr fun os _ => ?_⟩
      exact (ih hbody hbody').substitute hconst

/-! ## Simplification -/

section Folding

variable (hallowed : Operator.AllowsFolding allowed)
include hallowed

theorem UsesOnly.foldNot (h : allowed .not) (he : e.UsesOnly allowed) :
    (Expr.foldNot e).UsesOnly allowed := by
  rcases foldNot_cases e with ⟨p, hp⟩ | hnot
  · rw [hp]
    exact usesOnly_const hallowed.const _
  · rw [hnot]
    exact usesOnly_not.mpr ⟨h, he⟩

theorem UsesOnly.foldJunction {op : Junction} {es : List Expr} (h : allowed (.junction op))
    (hes : ∀ e ∈ es, e.UsesOnly allowed) : (Expr.foldJunction op es).UsesOnly allowed := by
  have hkept {kept : List Expr} (hgather : gather op es = some kept) :
      ∀ e ∈ kept, e.UsesOnly allowed := by
    intro e he
    rcases mem_of_gather hgather he with he | ⟨inner, hinner, he⟩
    · exact hes e he
    · exact (usesOnly_iff.mp (hes _ hinner)).2 e he
  rcases foldJunction_cases op es with ⟨p, hp⟩ | ⟨kept, hgather, hmem | hjunction⟩
  · rw [hp]
    exact usesOnly_const hallowed.const _
  · exact hkept hgather _ hmem
  · rw [hjunction]
    exact usesOnly_iff.mpr ⟨h, hkept hgather⟩

theorem UsesOnly.foldSeries {op : Series} {es : List Expr} (h : (series op es).UsesOnly allowed) :
    (Expr.foldSeries op es).UsesOnly allowed := by
  rcases foldSeries_cases op es with ⟨q, hq⟩ | hseries
  · rw [hq]
    exact usesOnly_const hallowed.const _
  · rwa [hseries]

theorem UsesOnly.foldBinary {op : BinaryOp} {x y : Expr} (h : (binary op x y).UsesOnly allowed) :
    (Expr.foldBinary op x y).UsesOnly allowed := by
  obtain ⟨hself, hx, hy⟩ := usesOnly_binary.mp h
  rcases foldBinary_cases op x y with ⟨p, hp⟩ | ⟨q, hq⟩ | ⟨rfl, hconclusion | ⟨_, hnot⟩⟩ |
    hbinary
  · rw [hp]
    exact usesOnly_const hallowed.const _
  · rw [hq]
    exact usesOnly_const hallowed.const _
  · rwa [hconclusion]
  · rw [hnot]
    exact usesOnly_not.mpr ⟨hallowed.not hself, hx⟩
  · rwa [hbinary]

theorem UsesOnly.simplify (F : StaticFacts) (h : e.UsesOnly allowed) :
    (F.simplify e).UsesOnly allowed := by
  induction e with
  | const v => exact h
  | var x => exact h
  | fluent f args ih =>
    obtain ⟨hself, hargs⟩ := usesOnly_iff.mp h
    rw [StaticFacts.simplify, StaticFacts.simplifyAll_eq, StaticFacts.foldFluent]
    split
    · exact usesOnly_const hallowed.const _
    · exact usesOnly_iff.mpr ⟨hself, List.forall_mem_map.mpr fun a ha => ih a ha (hargs a ha)⟩
  | not e ih =>
    obtain ⟨hself, he⟩ := usesOnly_not.mp h
    exact .foldNot hallowed hself (ih he)
  | junction op es ih =>
    obtain ⟨hself, hes⟩ := usesOnly_iff.mp h
    rw [StaticFacts.simplify, StaticFacts.simplifyAll_eq]
    exact .foldJunction hallowed hself (List.forall_mem_map.mpr fun e he => ih e he (hes e he))
  | series op es ih =>
    obtain ⟨hself, hes⟩ := usesOnly_iff.mp h
    rw [StaticFacts.simplify, StaticFacts.simplifyAll_eq]
    have hes := List.forall_mem_map.mpr fun e he => ih e he (hes e he)
    exact .foldSeries hallowed (usesOnly_iff.mpr ⟨hself, hes⟩)
  | binary op x y ihx ihy =>
    obtain ⟨hself, hx, hy⟩ := usesOnly_binary.mp h
    exact .foldBinary hallowed (usesOnly_binary.mpr ⟨hself, ihx hx, ihy hy⟩)
  | quantified q vars body ih =>
    obtain ⟨hself, hbody⟩ := usesOnly_quantified.mp h
    exact usesOnly_quantified.mpr ⟨hself, ih hbody⟩

end Folding

end Expr

/-! ## Ground expressions -/

/-- The features that can be there where some were: existential quantifiers can leave disjunctions
behind, and with pruning disjunctions can leave negations behind. -/
inductive Feature.Remains (pruned : Bool) (has : Feature → Prop) : Feature → Prop where
  | kept {f : Feature} : has f → Remains pruned has f
  | expanded : has .existentialConditions → Remains pruned has .disjunctiveConditions
  | negated : pruned = true → has .disjunctiveConditions → Remains pruned has .negativeConditions

theorem Feature.Remains.mono {pruned : Bool} {has has' : Feature → Prop} {f : Feature}
    (h : Remains pruned has f) (hhas : ∀ f, has f → has' f) : Remains pruned has' f := by
  cases h with
  | kept h => exact .kept (hhas f h)
  | expanded h => exact .expanded (hhas _ h)
  | negated hpruned h => exact .negated hpruned (hhas _ h)

namespace Grounder

variable {V : Vocabulary} {facts : Option StaticFacts} {b : Binding} {e e' : Expr}

theorem usesOnly_of_groundExpr (h : groundExpr V facts b e = .ok e') :
    e'.UsesOnly (Expr.Operator.Remains facts.isSome e) := by
  obtain ⟨d, hd, rfl⟩ := groundExpr_eq_ok h
  have hself : e.UsesOnly fun op => op = .const ∨ ∃ d ∈ e.subexpressions, d.operator = op :=
    fun d hd => .inr ⟨d, hd, rfl⟩
  have hexpanded : d.UsesOnly (Expr.Operator.Remains facts.isSome e) := by
    refine (hself.substitute (.inl rfl)).expand .const ?_ hd
    rintro _ (rfl | ⟨d, hd, rfl⟩)
    · exact .const
    · exact .expanded hd
  cases facts with
  | none => exact hexpanded
  | some F =>
    refine hexpanded.simplify ⟨.const, fun himplies => ?_⟩ F
    -- expansion makes no implications, so this one was there before
    generalize hop : Expr.Operator.binary .implies = op at himplies
    cases himplies with
    | const => cases hop
    | @expanded d hd =>
      cases d with
      | binary op x y =>
        cases hop
        exact .negated rfl hd
      | _ => cases hop
    | negated _ _ => exact .negated rfl ‹_›

theorem remains_of_feature?_expanded {d : Expr} (hd : d ∈ e.subexpressions) {f : Feature}
    (hf : d.operator.expanded.feature? = some f) {pruned : Bool} :
    f.Remains pruned (· ∈ e.features) := by
  have hkept (hop : d.operator.expanded = d.operator) : f.Remains pruned (· ∈ e.features) := by
    rw [hop, Expr.feature?_operator] at hf
    exact .kept (Expr.mem_features.mpr ⟨d, hd, hf⟩)
  cases d with
  | quantified q vars body =>
    cases q with
    | universal => cases hf
    | existential =>
      cases hf
      exact .expanded (Expr.feature_mem_features.mpr ⟨vars, body, hd⟩)
  | _ => exact hkept rfl

theorem mem_features_of_groundExpr (h : groundExpr V facts b e = .ok e') {f : Feature}
    (hf : f ∈ e'.features) : f.Remains facts.isSome (· ∈ e.features) := by
  obtain ⟨d, hd, hfeature⟩ := Expr.mem_features.mp hf
  have hremains := usesOnly_of_groundExpr h d hd
  rw [← Expr.feature?_operator] at hfeature
  generalize d.operator = op at hremains hfeature
  cases hremains with
  | const => cases hfeature
  | expanded hd => exact remains_of_feature?_expanded hd hfeature
  | negated hpruned himplies =>
    cases hfeature
    exact .negated hpruned (Expr.mem_features.mpr ⟨_, himplies, rfl⟩)

/-! ## Ground effects and metrics -/

theorem groundExpr_const (v : Value) : groundExpr V facts b (.const v) = .ok (.const v) := by
  cases facts <;> rfl

/-- A ground effect has the features of the effect it comes from, except that its condition may
have become true. -/
theorem GroundEffect.mem_features {f f' : Effect} (h : GroundEffect V facts b f f')
    (hkind : f'.kind = f.kind) {x : Feature} (hx : x ∈ f'.features) : x ∈ f.features := by
  have hconditional (hf' : f'.isConditional = true) : f.isConditional = true := by
    refine decide_eq_true fun htrue => of_decide_eq_true hf' ?_
    have hcondition := h.condition
    rw [htrue, groundExpr_const] at hcondition
    exact (Except.ok.inj hcondition).symm
  rw [Effect.mem_features] at hx ⊢
  rw [hkind] at hx
  exact hx.imp_left fun ⟨hx, hf'⟩ => ⟨hx, hconditional hf'⟩

theorem groundMetric_feature {made : List Grounded} {m m' : QualityMetric}
    (h : groundMetric V facts made m = .ok m') : m'.feature = m.feature := by
  cases m with
  | planLength =>
    cases h
    rfl
  | actionCosts costs default =>
    obtain ⟨_, _, ⟨⟩⟩ := bind_eq_ok.mp h
    rfl
  | minimizeFinal e | maximizeFinal e =>
    obtain ⟨_, _, ⟨⟩⟩ := bind_eq_ok.mp h
    rfl

/-! ## Ground problems -/

namespace Makes

variable {G : Grounder} {P : Problem} {R : CompilerResult} {cs : List Candidate}
  {made : List Grounded}

theorem condition_ground (h : G.Makes P R cs made) (hP : P.NamesDistinct) {c' : Expr}
    (hc' : c' ∈ R.problem.conditions) :
    ∃ c ∈ P.conditions, ∃ b, groundExpr P.toVocabulary (G.factsOf P) b c = .ok c' := by
  rcases Problem.mem_conditions.mp hc' with ⟨a, ha, hc'⟩ | hgoal
  · rw [h.actions] at ha
    obtain ⟨g, hg, rfl⟩ := List.mem_map.mp ha
    have horigin := h.origin_mem hP hg
    have hstands := h.kept.stands g hg
    rcases hc' with hpre | ⟨f', hf', rfl⟩
    · obtain ⟨c, hc, hground⟩ := hstands.preconditions.exists_of_mem hpre
      exact ⟨c, Problem.mem_conditions.mpr (.inl ⟨_, horigin, .inl hc⟩), _, hground⟩
    · obtain ⟨f, hf, hground⟩ := groundEffects_exists_of_mem hstands.effects hf'
      exact ⟨_, Problem.mem_conditions.mpr (.inl ⟨_, horigin, .inr ⟨f, hf, rfl⟩⟩), _,
        hground.condition⟩
  · obtain ⟨c, hc, hground⟩ := h.goals.exists_of_mem hgoal
    exact ⟨c, Problem.mem_conditions.mpr (.inr hc), _, hground⟩

theorem effect_ground (h : G.Makes P R cs made) (hP : P.NamesDistinct) {f' : Effect}
    (hf' : f' ∈ R.problem.effects) : ∃ f ∈ P.effects, f'.kind = f.kind ∧
      ∃ b, GroundEffect P.toVocabulary (G.factsOf P) b f f' := by
  obtain ⟨a, ha, hf'⟩ := Problem.mem_effects.mp hf'
  rw [h.actions] at ha
  obtain ⟨g, hg, rfl⟩ := List.mem_map.mp ha
  have heffects := (h.kept.stands g hg).effects
  obtain ⟨f, hf, hground, hkind⟩ := groundEffects_exists_kind_of_mem heffects hf'
  exact ⟨f, Problem.mem_effects.mpr ⟨_, h.origin_mem hP hg, hf⟩, hkind, _, hground⟩

theorem metrics_feature (h : G.Makes P R cs made) :
    R.problem.metrics.map QualityMetric.feature = P.metrics.map QualityMetric.feature := by
  have hall : List.Forall₂ (· = ·) (P.metrics.map QualityMetric.feature)
      (R.problem.metrics.map QualityMetric.feature) := by
    rw [List.forall₂_map_left_iff, List.forall₂_map_right_iff]
    exact h.metrics_ground.imp fun _ _ hm => (groundMetric_feature hm).symm
  rw [List.forall₂_eq_eq_eq] at hall
  exact hall.symm

theorem lacks_quantifier (h : G.Makes P R cs made) (hP : P.NamesDistinct) (q : Quantifier) :
    R.problem.kind.has q.feature = false := by
  rw [Bool.eq_false_iff, Ne, Problem.has_quantifier]
  rintro ⟨c', hc', hmentions⟩
  obtain ⟨c, _, b, hground⟩ := h.condition_ground hP hc'
  exact Expr.hasQuantifier_eq_false.mp (within_of_groundExpr hground).hasQuantifier q hmentions

theorem remains_of_has (h : G.Makes P R cs made) (hP : P.NamesDistinct) {f : Feature}
    (hf : R.problem.kind.has f = true) :
    f.Remains G.options.pruneStatic fun f => P.kind.has f = true := by
  have hpruned : (G.factsOf P).isSome = G.options.pruneStatic := by
    unfold factsOf
    cases G.options.pruneStatic <;> rfl
  have hdeclarations : R.problem.declarationFeatures = P.declarationFeatures := by
    unfold Problem.declarationFeatures
    rw [h.vocabulary]
  rcases Problem.has_kind.mp hf with
    rfl | hdeclared | ⟨c', hc', hfeature⟩ | ⟨f', hf', hfeature⟩ | hmetric
  · exact .kept (Problem.has_kind.mpr (.inl rfl))
  · rw [hdeclarations] at hdeclared
    exact .kept (Problem.has_kind.mpr (.inr (.inl hdeclared)))
  · obtain ⟨c, hc, b, hground⟩ := h.condition_ground hP hc'
    rw [← hpruned]
    refine (mem_features_of_groundExpr hground hfeature).mono fun f hf => ?_
    exact Problem.has_kind.mpr (.inr (.inr (.inl ⟨c, hc, hf⟩)))
  · obtain ⟨e, he, hkind, b, hground⟩ := h.effect_ground hP hf'
    have hfeature := hground.mem_features hkind hfeature
    exact .kept (Problem.has_kind.mpr (.inr (.inr (.inr (.inl ⟨e, he, hfeature⟩)))))
  · rw [h.metrics_feature] at hmetric
    exact .kept (Problem.has_kind.mpr (.inr (.inr (.inr (.inr hmetric)))))

end Makes

end Grounder

namespace Examples

/-- A vault that can be entered if, in case the alarm is armed, the mains are off. They are never
off, so what is left to ask is that the alarm is not armed. -/
def vault : Problem :=
  .build "vault" [
    .addFluent (.predicate "armed" []),
    .addFluent (.predicate "off" []),
    .addFluent (.predicate "open" []),
    .addAction ⟨"disarm", [], [], [makes "armed" [] false]⟩,
    .addAction ⟨"enter", [], [.binary .implies (.fluent "armed" []) (.fluent "off" [])],
      [makes "open" [] true]⟩,
    .setTrue "armed" [],
    .addGoal (.fluent "open" [])]

end Examples

namespace Grounder

open Examples

variable {G : Grounder} {P : Problem} {R : CompilerResult}

/-- The kind of a grounding has no feature of a quantifier, the same features of metrics as the kind
of the problem, and otherwise only features that the kind of the problem has, apart from two:
existential quantifiers can become disjunctions, and with pruning implications, which count as
disjunctions, can become negations. -/
theorem ground_kind (hP : P.Built) (h : G.ground P = .ok R) :
    R.problem.kind.has .universalConditions = false ∧
      R.problem.kind.has .existentialConditions = false ∧
      (∀ f : Feature, f.isMetric = true → R.problem.kind.has f = P.kind.has f) ∧
      ∀ f : Feature, R.problem.kind.has f = true → P.kind.has f = true ∨
        (f = .disjunctiveConditions ∧ P.kind.has .existentialConditions = true) ∨
        (f = .negativeConditions ∧ G.options.pruneStatic = true ∧
          P.kind.has .disjunctiveConditions = true) := by
  obtain ⟨cs, made, hmakes⟩ := makes_of_ground h
  have hnames := hP.namesDistinct
  refine ⟨hmakes.lacks_quantifier hnames .universal, hmakes.lacks_quantifier hnames .existential,
    fun f hf => ?_, fun f hf => ?_⟩
  · rw [Bool.eq_iff_iff, Problem.has_metric hf, Problem.has_metric hf, hmakes.metrics_feature]
  · cases hmakes.remains_of_has hnames hf with
    | kept h => exact .inl h
    | expanded h => exact .inr (.inl ⟨rfl, h⟩)
    | negated hpruned h => exact .inr (.inr ⟨rfl, hpruned, h⟩)

/-- The depot asks whether a thing is on some vehicle, its grounding whether it is on one vehicle or
the other. -/
theorem ground_kind_depot : ∃ R, (grounder true).ground depot = .ok R ∧
    depot.kind.has .disjunctiveConditions = false ∧
    R.problem.kind.has .disjunctiveConditions = true ∧
    R.problem.kind.has .existentialConditions = false ∧
    R.problem.kind.has .actionsCost = depot.kind.has .actionsCost := by
  have hnew : depot.kind.has .disjunctiveConditions = false := by decide +kernel
  have hleft : ((grounder true).ground depot).map
      (fun R => R.problem.kind.has .disjunctiveConditions) = .ok true := by
    decide +kernel
  obtain ⟨R, hR, hleft⟩ := map_eq_ok.mp hleft
  obtain ⟨_, hexistential, hmetrics, _⟩ := ground_kind depot_built hR
  exact ⟨R, hR, hnew, hleft, hexistential, hmetrics .actionsCost rfl⟩

/-- The negation is new, and only pruning makes it. -/
example : vault.kind.has .negativeConditions = false ∧ ∀ prune : Bool,
    ((grounder prune).ground vault).map (fun R => R.problem.kind.has .negativeConditions) =
      .ok prune := by
  decide +kernel

end Grounder

end LiftedPlanning
