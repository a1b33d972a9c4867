import LiftedPlanning.Proofs.GroundNaming
import LiftedPlanning.Proofs.Groundness

/-!
# Grounding once more

A grounding is a problem that can be built (`Grounder.Makes.built`), and it is ground: actions have
no parameters, no expression has a quantifier, and costs are listed by the names of actions.
A grounder that does not prune leaves such a problem as it is, except for its name
(`Grounder.ground_of_isGround`): there is nothing to substitute and nothing to expand, every action
is its only instance, and as names of actions are distinct, none of them gets a number.
-/

namespace LiftedPlanning

/-! ## Building the parts of a problem -/

namespace Problem.Built

variable {P : Problem}

theorem addAction (hP : P.Built) {a : Action} (htyped : P.ActionTyped a)
    (hnew : a.name ∉ P.actions.map Action.name) :
    Built { P with actions := P.actions ++ [a] } := by
  have hadd : P.addAction a = .ok { P with actions := P.actions ++ [a] } := by
    have hany : ¬ (P.actions.any fun b => b.name = a.name) = true := by
      simpa using hnew
    rw [Problem.addAction, if_neg hany, Vocabulary.checkAction_eq_ok.mpr htyped]
    rfl
  have hbuilt := hP.performed (.addAction a)
  rwa [perform, hadd] at hbuilt

theorem addGoal (hP : P.Built) {goal : Expr} (htyped : P.Typed .empty goal) :
    Built { P with goals := P.goals ++ [goal] } := by
  have hadd : P.addGoal goal = .ok { P with goals := P.goals ++ [goal] } := by
    rw [Problem.addGoal, Vocabulary.checkExpr_eq_ok.mpr htyped]
    rfl
  have hbuilt := hP.performed (.addGoal goal)
  rwa [perform, hadd] at hbuilt

theorem addActions (hP : P.Built) {as : List Action} (htyped : ∀ a ∈ as, P.ActionTyped a)
    (hnames : ((P.actions ++ as).map Action.name).Nodup) :
    Built { P with actions := P.actions ++ as } := by
  induction as generalizing P with
  | nil => rwa [List.append_nil]
  | cons a as ih =>
    obtain ⟨ha, has⟩ := List.forall_mem_cons.mp htyped
    rw [List.append_cons] at hnames ⊢
    have hnew : a.name ∉ P.actions.map Action.name := by
      rw [List.map_append, List.map_append, List.append_assoc, List.nodup_append] at hnames
      exact fun hmem => hnames.2.2 _ hmem _ (List.mem_append_left _ List.mem_cons_self) rfl
    exact ih (hP.addAction ha hnew) has hnames

theorem addGoals (hP : P.Built) {goals : List Expr} (htyped : ∀ g ∈ goals, P.Typed .empty g) :
    Built { P with goals := P.goals ++ goals } := by
  induction goals generalizing P with
  | nil => rwa [List.append_nil]
  | cons g goals ih =>
    obtain ⟨hg, hgoals⟩ := List.forall_mem_cons.mp htyped
    rw [List.append_cons]
    exact ih (hP.addGoal hg) hgoals

theorem addMetrics (hP : P.Built) (ms : List QualityMetric) :
    Built { P with metrics := P.metrics ++ ms } := by
  induction ms generalizing P with
  | nil => rwa [List.append_nil]
  | cons m ms ih =>
    rw [List.append_cons]
    exact ih (hP.performed (.addMetric m))

end Problem.Built

namespace Grounder.Makes

variable {G : Grounder} {P : Problem} {R : CompilerResult} {cs : List Candidate}
  {made : List Grounded} {g : Grounded}

theorem action_typed (h : G.Makes P R cs made) (hP : P.Built) (hg : g ∈ made) :
    P.ActionTyped g.action := by
  have hargs := Vocabulary.checkArgs_eq_ok.mp (h.checkArguments_lifted hP.namesDistinct hg)
  exact (h.kept.stands g hg).typed hP (h.origin_mem hP.namesDistinct hg) hargs

theorem goals_typed (h : G.Makes P R cs made) (hP : P.Built) :
    ∀ e ∈ R.problem.goals, P.Typed .empty e := by
  intro e' he'
  obtain ⟨e, he, hground⟩ := h.goals.exists_of_mem he'
  exact groundGoal_typed hP he hground

/-- The parts of a grounding can be added one by one to the vocabulary and the initial values that
it shares with the problem. -/
theorem built (h : G.Makes P R cs made) (hP : P.Built) : R.problem.Built := by
  have hskeleton : (P.skeleton R.problem.name).Built := hP.performed (.skeleton R.problem.name)
  have hactions : ∀ a ∈ R.problem.actions, P.ActionTyped a := by
    intro a ha
    rw [h.actions] at ha
    obtain ⟨g, hg, rfl⟩ := List.mem_map.mp ha
    exact h.action_typed hP hg
  have hnames : (R.problem.actions.map Action.name).Nodup := by
    rw [h.names_ground]
    exact h.distinct
  have hbuilt := ((hskeleton.addActions hactions hnames).addGoals (h.goals_typed hP)).addMetrics
    R.problem.metrics
  have hproblem : R.problem = ⟨P.toVocabulary, R.problem.name, P.initialValues, R.problem.actions,
      R.problem.goals, R.problem.metrics⟩ := by
    rw [← h.vocabulary, ← h.initialValues]
  rw [hproblem]
  exact hbuilt

end Grounder.Makes

/-! ## Problems that are ground -/

/-- Costs are listed by names out of these, and there is no default. -/
def QualityMetric.ListedBy (names : List String) : QualityMetric → Prop
  | actionCosts costs default => default = none ∧ ∀ entry ∈ costs.entries, entry.1 ∈ names
  | _ => True

/-- Actions are ground, goals and metrics have no quantifiers, and costs are listed by the names of
actions. -/
structure Problem.IsGround (P : Problem) : Prop where
  actions : ∀ a ∈ P.actions, a.isGround = true
  goals : ∀ e ∈ P.goals, e.hasQuantifier = false
  metrics : ∀ m ∈ P.metrics, ∀ e ∈ m.expressions, e.hasQuantifier = false
  costs : ∀ m ∈ P.metrics, m.ListedBy (P.actions.map Action.name)

namespace Grounder

variable {G : Grounder} {P : Problem} {R : CompilerResult} {cs : List Candidate}
  {made : List Grounded}

theorem listedBy_of_groundMetric {V : Vocabulary} {facts : Option StaticFacts}
    {m m' : QualityMetric} (h : groundMetric V facts made m = .ok m') :
    m'.ListedBy (made.map Grounded.name) := by
  cases m with
  | planLength =>
    cases h
    trivial
  | actionCosts costs default =>
    obtain ⟨costs', hcosts, ⟨⟩⟩ := bind_eq_ok.mp h
    refine ⟨rfl, fun entry hentry => ?_⟩
    have hkey := List.mem_map_of_mem (f := Prod.fst) (SortedMap.mem_of_mem_ofList hentry)
    exact (groundCosts_keys_sublist hcosts).subset hkey
  | minimizeFinal e | maximizeFinal e =>
    obtain ⟨_, _, ⟨⟩⟩ := bind_eq_ok.mp h
    trivial

theorem Makes.isGround (h : G.Makes P R cs made) (hP : P.Built) : R.problem.IsGround where
  actions a ha := by
    rw [h.actions] at ha
    obtain ⟨g, hg, rfl⟩ := List.mem_map.mp ha
    exact Action.isGround_iff.mpr ⟨(h.kept.stands g hg).parameters, h.expressions_ground hP hg⟩
  goals e he := (h.goals_ground hP e he).1
  metrics _ hm _ he := h.metrics_quantifierFree hm he
  costs m' hm' := by
    obtain ⟨m, _, hm⟩ := exists_left_of_forall₂ h.metrics_ground hm'
    rw [h.names_ground]
    exact listedBy_of_groundMetric hm

end Grounder

/-! ## Passes that change nothing -/

namespace Expr

theorem hasQuantifier_iff {e : Expr} : e.hasQuantifier = false ↔
    e.isQuantifier = false ∧ ∀ c ∈ e.children, c.hasQuantifier = false := by
  simp only [hasQuantifier, List.any_eq_false, ← Bool.eq_false_iff]
  exact forall_subexpressions_iff

end Expr

theorem Vocabulary.expand_of_quantifierFree {V : Vocabulary} {e : Expr}
    (h : e.hasQuantifier = false) : V.expand e = .ok e := by
  have hall {es : List Expr} (ih : ∀ e ∈ es, e.hasQuantifier = false → V.expand e = .ok e)
      (hes : ∀ e ∈ es, e.hasQuantifier = false) : V.expandAll es = .ok es := by
    rw [expandAll_eq]
    exact mapM_eq_ok.mpr (List.forall₂_same.mpr fun e he => ih e he (hes e he))
  induction e with
  | const v | var x => rfl
  | fluent f es ih | junction f es ih | series f es ih =>
    rw [expand, hall ih (Expr.hasQuantifier_iff.mp h).2]
    rfl
  | not e ih =>
    have he := (Expr.hasQuantifier_iff.mp h).2 e (List.mem_singleton_self e)
    rw [expand, ih he]
    rfl
  | binary op x y ihx ihy =>
    obtain ⟨hx, hy⟩ := List.forall_mem_cons.mp (Expr.hasQuantifier_iff.mp h).2
    have hy := List.forall_mem_singleton.mp hy
    rw [expand, ihx hx, ihy hy]
    rfl
  | quantified q vars body ih => cases (Expr.hasQuantifier_iff.mp h).1

theorem Binding.ofArgs_nil (params : List Parameter) : ofArgs params [] = .empty := by
  cases params <;> rfl

theorem FreshName.fresh_of_notMem {used : Std.TreeSet String} {base : String} (h : base ∉ used) :
    fresh used base = base := by
  obtain ⟨k, _, hk, _, hpassed⟩ := fresh_eq_candidate used base
  cases k with
  | zero => exact hk
  | succ k => exact absurd (hpassed 0 (Nat.succ_pos k)) h

def Grounded.ofAction (a : Action) : Grounded := ⟨a, a, []⟩

theorem Grounded.binding_ofAction (a : Action) : (ofAction a).binding = .empty :=
  Binding.ofArgs_nil a.parameters

namespace Grounder

section Expressions

variable {V : Vocabulary} {e : Expr}

theorem groundExpr_self (h : e.hasQuantifier = false) : groundExpr V none .empty e = .ok e := by
  rw [groundExpr, Expr.substitute_empty, Vocabulary.expand_of_quantifierFree h]
  rfl

theorem groundPreconditions_self {es : List Expr} (h : ∀ e ∈ es, e.hasQuantifier = false) :
    groundPreconditions V none .empty es = .ok (some es) := by
  induction es with
  | nil => rfl
  | cons e es ih =>
    obtain ⟨he, hes⟩ := List.forall_mem_cons.mp h
    rw [groundPreconditions, groundExpr_self he]
    show (groundPreconditions V none .empty es >>= _) = _
    rw [ih hes]
    rfl

theorem groundEffects_self {fs : List Effect}
    (h : ∀ f ∈ fs, f.condition.hasQuantifier = false ∧ f.value.hasQuantifier = false) :
    groundEffects V none .empty fs = .ok fs := by
  induction fs with
  | nil => rfl
  | cons f fs ih =>
    obtain ⟨⟨hcondition, hvalue⟩, hfs⟩ := List.forall_mem_cons.mp h
    have hargs : f.args.map (Expr.substitute .empty) = f.args := by
      rw [List.map_congr_left fun a _ => Expr.substitute_empty a, List.map_id']
    rw [groundEffects, groundExpr_self hcondition]
    show (groundExpr V none .empty f.value >>= _) = _
    rw [groundExpr_self hvalue, hargs]
    show (groundEffects V none .empty fs >>= _) = _
    rw [ih hfs]
    rfl

theorem groundAction_self {a : Action} (ha : a.isGround = true) :
    groundAction V none .empty a = .ok (some (a.preconditions, a.effects)) := by
  have h : ∀ e ∈ a.expressions, e.hasQuantifier = false :=
    fun e he => ((Action.isGround_iff.mp ha).2 e he).1
  have hpreconditions : ∀ e ∈ a.preconditions, e.hasQuantifier = false :=
    fun e he => h e (List.mem_append_left _ he)
  have heffects : ∀ f ∈ a.effects, f.condition.hasQuantifier = false ∧
      f.value.hasQuantifier = false := by
    intro f hf
    have hmem {e : Expr} (he : e ∈ [f.value, f.condition]) : e ∈ a.expressions :=
      List.mem_append_right _ (List.mem_flatMap.mpr ⟨f, hf, List.mem_append_right _ he⟩)
    exact ⟨h _ (hmem (List.mem_cons_of_mem _ List.mem_cons_self)), h _ (hmem List.mem_cons_self)⟩
  rw [groundAction, groundPreconditions_self hpreconditions]
  show (groundEffects V none .empty a.effects >>= _) = _
  rw [groundEffects_self heffects]
  rfl

theorem Residue.eq_self {es es' : List Expr} (h : Residue V none .empty es es')
    (hes : ∀ e ∈ es, e.hasQuantifier = false) : es' = es := by
  induction h with
  | nil => rfl
  | drop hfacts _ _ _ => cases hfacts
  | keep he _ ih =>
    obtain ⟨hfree, hes⟩ := List.forall_mem_cons.mp hes
    rw [groundExpr_self hfree] at he
    rw [ih hes, Except.ok.inj he]

theorem eq_of_rel_groundExpr {x y : Option Expr}
    (h : Option.Rel (fun e e' => groundExpr V none .empty e = .ok e') x y)
    (hx : ∀ e, x = some e → e.hasQuantifier = false) : y = x := by
  cases h with
  | none => rfl
  | some he =>
    rw [groundExpr_self (hx _ rfl)] at he
    rw [Except.ok.inj he]

end Expressions

/-! ## The run of a grounder that does not prune -/

/-- The grounder that handles all features, does not prune, and has neither a limit nor been told to
stop. -/
def unpruned : Grounder := ⟨⟨false, none⟩, .all, false⟩

variable {P : Problem}

theorem groundSchema_self {a : Action} {g : Grounding} (ha : a.isGround = true)
    (htyped : P.ActionTyped a) (hnew : a.name ∉ g.made.map Grounded.name) :
    ∃ g', unpruned.groundSchema P none g a = .ok g' ∧ g'.made = .ofAction a :: g.made := by
  have hparameters : a.parameters = [] := (Action.isGround_iff.mp ha).1
  have hname : FreshName.fresh g.names ("_".intercalate [a.name]) = a.name :=
    FreshName.fresh_of_notMem (mt (g.mem_names _).mp hnew)
  have haction : (⟨FreshName.fresh g.names ("_".intercalate [a.name]), [], a.preconditions,
      a.effects⟩ : Action) = a := by
    rw [hname, ← hparameters]
  have hground : groundAction P.toVocabulary none (.ofArgs a.parameters []) a =
      .ok (some (a.preconditions, a.effects)) := by
    rw [Binding.ofArgs_nil]
    exact groundAction_self ha
  have hemit : ∃ g', emit P.toVocabulary g a [] a.preconditions a.effects = .ok g' ∧
      g'.made = .ofAction a :: g.made := by
    refine ⟨_, bind_eq_ok.mpr ⟨(), ?_, rfl⟩, ?_⟩
    · rw [haction]
      exact Vocabulary.checkAction_eq_ok.mpr htyped
    · show Grounded.mk _ a [] :: g.made = _
      rw [haction]
      rfl
  obtain ⟨g', hg', hmade⟩ := hemit
  refine ⟨g', ?_, hmade⟩
  unfold groundSchema
  rw [hparameters]
  show ((groundAction P.toVocabulary none (.ofArgs a.parameters []) a).mapError
    GroundingError.model >>= _) = _
  rw [hground]
  show (emit P.toVocabulary g a [] a.preconditions a.effects).mapError _ = _
  rw [hg']
  rfl

/-- Every action is made as it is, on top of those made before. -/
theorem groundSchemas_self {as : List Action} {g : Grounding}
    (hground : ∀ a ∈ as, a.isGround = true) (htyped : ∀ a ∈ as, P.ActionTyped a)
    (hnames : (as.map Action.name ++ g.made.map Grounded.name).Nodup) :
    ∃ g', as.foldlM (unpruned.groundSchema P none) g = .ok g' ∧
      g'.made = (as.map Grounded.ofAction).reverse ++ g.made := by
  induction as generalizing g with
  | nil => exact ⟨g, rfl, rfl⟩
  | cons a as ih =>
    obtain ⟨ha, hground⟩ := List.forall_mem_cons.mp hground
    obtain ⟨hatyped, htyped⟩ := List.forall_mem_cons.mp htyped
    have hnew : a.name ∉ g.made.map Grounded.name :=
      fun hmem => (List.nodup_cons.mp hnames).1 (List.mem_append_right _ hmem)
    obtain ⟨g₁, hg₁, hmade₁⟩ := groundSchema_self ha hatyped hnew
    -- the name moves from those to come to those made
    have hnames₁ : (as.map Action.name ++ g₁.made.map Grounded.name).Nodup := by
      rw [hmade₁]
      exact List.nodup_middle.mpr hnames
    obtain ⟨g', hg', hmade⟩ := ih hground htyped hnames₁
    refine ⟨g', ?_, ?_⟩
    · rw [List.foldlM_cons, hg₁]
      exact hg'
    · rw [hmade, hmade₁, List.map_cons, List.reverse_cons, List.append_assoc]
      rfl

theorem groundCost_total {V : Vocabulary} {m : QualityMetric}
    (hfree : ∀ e ∈ m.expressions, e.hasQuantifier = false) (a : Action) :
    ∃ c, groundCost V none m (.ofAction a) = .ok c := by
  unfold groundCost
  split
  · next cost hcost =>
    have hcostFree := hfree cost (QualityMetric.mem_expressions_of_actionCost hcost)
    rw [Grounded.binding_ofAction, groundExpr_self hcostFree]
    exact ⟨_, rfl⟩
  · exact ⟨none, rfl⟩

theorem groundCosts_self {V : Vocabulary} {as : List Action} {costs : SortedMap String Expr}
    {costs' : List (Option (String × Expr))} (hnames : (as.map Action.name).Nodup)
    (hfree : ∀ e ∈ (QualityMetric.actionCosts costs none).expressions, e.hasQuantifier = false)
    (hkeys : ∀ entry ∈ costs.entries, entry.1 ∈ as.map Action.name)
    (h : (as.map Grounded.ofAction).mapM (groundCost V none (.actionCosts costs none)) =
      .ok costs') :
    SortedMap.ofList (costs'.filterMap id) = costs := by
  have hmade : (as.map Grounded.ofAction).map Grounded.name = as.map Action.name := by
    rw [List.map_map]
    rfl
  refine SortedMap.ext_get? fun name => ?_
  -- both are listed by names of actions, so under any other name neither has an entry
  by_cases hname : name ∈ as.map Action.name
  · obtain ⟨a, ha, rfl⟩ := List.mem_map.mp hname
    have hcost := groundCosts_get? (hmade ▸ hnames) h (List.mem_map_of_mem ha)
    rw [Grounded.binding_ofAction] at hcost
    refine (eq_of_rel_groundExpr hcost fun e he => hfree e ?_).trans Option.or_none
    exact QualityMetric.mem_expressions_of_actionCost he
  · have hnone : costs.get? name = none := by
      refine Option.eq_none_iff_forall_ne_some.mpr fun e he => hname ?_
      exact hkeys _ ((SortedMap.get?_eq_some_iff_mem costs name e).mp he)
    rw [hnone]
    refine SortedMap.get?_ofList_of_notMem fun hmem => hname ?_
    exact hmade ▸ (groundCosts_keys_sublist h).subset hmem

theorem groundMetric_self {V : Vocabulary} {as : List Action} {m : QualityMetric}
    (hnames : (as.map Action.name).Nodup) (hfree : ∀ e ∈ m.expressions, e.hasQuantifier = false)
    (hlisted : m.ListedBy (as.map Action.name)) :
    groundMetric V none (as.map Grounded.ofAction) m = .ok m := by
  cases m with
  | planLength => rfl
  | minimizeFinal e | maximizeFinal e =>
    rw [groundMetric, groundExpr_self (hfree e (List.mem_singleton_self e))]
    rfl
  | actionCosts costs default =>
    obtain ⟨rfl, hkeys⟩ := hlisted
    obtain ⟨costs', hcosts⟩ := mapM_total (List.forall_mem_map.mpr fun a _ =>
      groundCost_total (V := V) hfree a)
    rw [groundMetric, hcosts]
    show Except.ok (QualityMetric.actionCosts (.ofList (costs'.filterMap id)) none) = _
    rw [groundCosts_self hnames hfree hkeys hcosts]

theorem groundGoals_self (hP : P.Built) (hfree : ∀ e ∈ P.goals, e.hasQuantifier = false)
    (made : List Grounded) : P.goals.foldlM (groundGoal P none) (groundBase P made) =
      .ok { groundBase P made with goals := P.goals } := by
  have hfails := groundGoals_failsOnly (G := unpruned) hP (Q := groundBase P made) rfl
  cases hrun : P.goals.foldlM (groundGoal P none) (groundBase P made) with
  | error e => exact (hfails e hrun).elim
  | ok Q =>
    obtain ⟨rest, hrest, rfl⟩ := groundGoals_residue hrun
    rw [hrest.eq_self hfree]
    rfl

theorem groundBase_ofAction : groundBase P (P.actions.map Grounded.ofAction) =
    { P.skeleton (P.name ++ "_grounded") with actions := P.actions } := by
  have hactions : (P.actions.map Grounded.ofAction).map Grounded.action = P.actions := by
    rw [List.map_map]
    exact List.map_id P.actions
  rw [groundBase, hactions]

theorem namesOf_ofAction (as : List Action) : namesOf (as.map Grounded.ofAction) =
    ⟨as.map fun a => (a.name, .ground a.name)⟩ := by
  rw [namesOf, List.map_map]
  rfl

/-- A grounder that does not prune leaves a problem that is ground as it is, except that the name
says once more that it is ground. Every action stands for itself. -/
theorem ground_of_isGround (hP : P.Built) (h : P.IsGround) :
    unpruned.ground P = .ok ⟨{ P with name := P.name ++ "_grounded" },
      ⟨P.actions.map fun a => (a.name, .ground a.name)⟩, engineName⟩ := by
  have hnames := hP.namesDistinct.actions
  have hnone : (P.actions.map Action.name ++ Grounding.empty.made.map Grounded.name).Nodup := by
    rwa [Grounding.empty, List.map_nil, List.append_nil]
  obtain ⟨g, hactions, hmade⟩ := groundSchemas_self h.actions hP.wellTyped.actions hnone
  have hreverse : g.made.reverse = P.actions.map Grounded.ofAction := by
    rw [hmade, Grounding.empty, List.append_nil, List.reverse_reverse]
  have hmetrics : P.metrics.mapM (groundMetric P.toVocabulary none g.made.reverse) =
      .ok P.metrics := by
    rw [hreverse]
    refine mapM_eq_ok.mpr (List.forall₂_same.mpr fun m hm => ?_)
    exact groundMetric_self hnames (h.metrics m hm) (h.costs m hm)
  have hmissing : unpruned.capabilities.missing P.kind = [] :=
    List.filter_eq_nil_iff.mpr fun f _ hf => Bool.noConfusion hf
  rw [ground, hmissing]
  show (P.actions.foldlM (unpruned.groundSchema P none) .empty >>= _) = _
  rw [hactions]
  show ((P.goals.foldlM (groundGoal P none) (groundBase P g.made.reverse)).mapError
    GroundingError.model >>= _) = _
  rw [groundGoals_self hP h.goals]
  show ((P.metrics.mapM (groundMetric P.toVocabulary none g.made.reverse)).mapError
    GroundingError.model >>= _) = _
  rw [hmetrics]
  show Except.ok (CompilerResult.mk _ _ _) = _
  rw [foldl_addMetric, hreverse, groundBase_ofAction, namesOf_ofAction]
  rfl

/-! ## Grounding twice -/

open Examples

/-- Grounding without pruning changes nothing in what it has put out itself: the second time there
are the same actions in the same order, under the same names, the same goals and the same metrics,
and the way back leads from every ground action to itself. -/
theorem ground_twice (hP : P.Built) {R : CompilerResult} (h : unpruned.ground P = .ok R) :
    ∃ R', unpruned.ground R.problem = .ok R' ∧ R'.problem.actions = R.problem.actions ∧
      R'.problem.goals = R.problem.goals ∧ R'.problem.metrics = R.problem.metrics ∧
      ∀ a ∈ R.problem.actions, R'.mapBack (.ground a.name) = .ok (.ground a.name) := by
  obtain ⟨cs, made, hmakes⟩ := makes_of_ground h
  have hagain := ground_of_isGround (hmakes.built hP) (hmakes.isGround hP)
  obtain ⟨_, _, hmakes'⟩ := makes_of_ground hagain
  refine ⟨_, hagain, rfl, rfl, rfl, fun a ha => ?_⟩
  exact hmakes'.mapBack_eq_ok_iff.mpr (List.mem_map.mpr ⟨a, ha, rfl⟩)

/-- Going costs two and everything else one, by default. The grounding lists the cost of every
ground action, under names of which some have a number. -/
theorem ground_twice_namesakes :
    let fares : Problem := namesakes.addMetric
      (.actionCosts (.ofList [("go", .number 2)]) (some (.number 1)))
    let names := ["go_a_a", "go_a_b", "go_b_a", "go_b_b", "go_a_a_1", "go_a_b_1", "go_a_b_1_1"]
    let listed : QualityMetric := .actionCosts (.ofList [("go_a_a", .number 2),
      ("go_a_b", .number 2), ("go_b_a", .number 2), ("go_b_b", .number 2), ("go_a_a_1", .number 1),
      ("go_a_b_1", .number 1), ("go_a_b_1_1", .number 1)]) none
    ∃ R R', unpruned.ground fares = .ok R ∧ unpruned.ground R.problem = .ok R' ∧
      R.problem.actions.map Action.name = names ∧ R'.problem.actions = R.problem.actions ∧
      R.problem.metrics = [listed] ∧ R'.problem.metrics = R.problem.metrics := by
  intro fares names listed
  have hfares : fares.Built := namesakes_built.performed (.addMetric _)
  have hparts : (unpruned.ground fares).map (fun R =>
      (R.problem.actions.map Action.name, R.problem.metrics)) = .ok (names, [listed]) := by
    decide +kernel
  obtain ⟨R, hR, hparts⟩ := map_eq_ok.mp hparts
  obtain ⟨hnames, hmetrics⟩ := Prod.mk.inj hparts
  obtain ⟨R', hR', hactions, _, hsame, _⟩ := ground_twice hfares hR
  exact ⟨R, R', hR, hR', hnames, hactions, hmetrics, hsame⟩

end Grounder

end LiftedPlanning
