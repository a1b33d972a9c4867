import LiftedPlanning.Proofs.GroundMetrics

/-!
# Validation of ground plans

A plan of ground actions is run on the ground problem, and the plan it stands for on the lifted
problem, step by step in the same states. So the validation of the ground plan follows that of the
lifted one (`Grounder.Makes.validate_follows`), exactly if nothing was pruned
(`Grounder.unpruned_validation_exact`).

A lifted plan that runs to its end consists of steps that have ground actions, because what was
pruned is applicable in no reachable state. So grounding loses no plan
(`Grounder.ground_validation_complete`).
-/

namespace LiftedPlanning

/-! ## Matching outcomes -/

/-- A failed check of the ground problem matches one of the lifted problem: it is of the same kind
and at the same step, and its condition is the translated one, under the binding of the step. -/
inductive FailedCheck.Matches (P : Problem) (R : CompilerResult)
    (translate : Binding → Expr → Except ModelError Expr) : FailedCheck → FailedCheck → Prop where
  | inapplicable {k : Nat} {i j : ActionInstance} {a : Action} {c c' : Expr} :
      R.mapBack j = .ok i → P.action i.action = .ok a →
      translate (.ofArgs a.parameters i.args) c = .ok c' →
      Matches P R translate (.inapplicable k i c) (.inapplicable k j c')
  | goalNotReached {c c' : Expr} : translate .empty c = .ok c' →
      Matches P R translate (.goalNotReached c) (.goalNotReached c')
  | metricUnsupported : Matches P R translate .metricUnsupported .metricUnsupported

/-- The result for a ground plan matches that for the lifted plan: the same verdict, trace length
and metric values, and matching failed checks. -/
structure ValidationResult.Matches (P : Problem) (R : CompilerResult)
    (translate : Binding → Expr → Except ModelError Expr) (r r' : ValidationResult) : Prop where
  verdict : r'.verdict = r.verdict
  reason : Option.Rel (FailedCheck.Matches P R translate) r.reason r'.reason
  traceLength : r'.traceLength = r.traceLength
  values : r'.metrics.map Prod.snd = r.metrics.map Prod.snd

/-- Two runs end alike: in the same reachable state with the same costs, or blocked at the same
step by matching conditions. -/
inductive RunEnd.Matches (P : Problem) (R : CompilerResult)
    (translate : Binding → Expr → Except ModelError Expr) : RunEnd → RunEnd → Prop where
  | finished {r : Run} : P.Reaches P.initialState r.state →
      Matches P R translate (.finished r) (.finished r)
  | blocked {k : Nat} {i j : ActionInstance} {a : Action} {c c' : Expr} :
      R.mapBack j = .ok i → P.action i.action = .ok a →
      translate (.ofArgs a.parameters i.args) c = .ok c' →
      Matches P R translate (.blocked k i c) (.blocked k j c')

namespace PlanValidator

variable {v : PlanValidator} {P : Problem} {k : Nat} {r r' : Run} {i : ActionInstance} {rest : Plan}

/-- One step of a run that is accepted as an instance of an action. -/
theorem run_cons (hv : v.cancelled = false) {a : Action} (ha : P.action i.action = .ok a)
    (hargs : P.checkArguments a i.args = .ok ()) :
    v.run P k r (i :: rest) = (do
      let b := Binding.ofArgs a.parameters i.args
      match ← (P.firstFalse r.state b a.preconditions).mapError .model with
      | some condition => return .blocked k i condition
      | none =>
        let costs ← addCosts P r.state b a r.costs
        let state ← (P.apply r.state b a).mapError .model
        v.run P (k + 1) ⟨state, costs⟩ rest) := by
  rw [run, if_neg (Bool.eq_false_iff.mp hv), ha]
  show ((P.checkArguments a i.args).mapError ValidationError.model >>= _) = _
  rw [hargs]
  rfl

/-- The first step of a run that is finished was accepted, applicable and made. -/
theorem run_cons_finished (h : v.run P k r (i :: rest) = .ok (.finished r')) :
    ∃ a s costs, P.action i.action = .ok a ∧ P.checkArguments a i.args = .ok () ∧
      P.firstFalse r.state (.ofArgs a.parameters i.args) a.preconditions = .ok none ∧
      addCosts P r.state (.ofArgs a.parameters i.args) a r.costs = .ok costs ∧
      P.apply r.state (.ofArgs a.parameters i.args) a = .ok s ∧
      v.run P (k + 1) ⟨s, costs⟩ rest = .ok (.finished r') := by
  rw [run] at h
  split at h
  · cases h
  · obtain ⟨a, ha, h⟩ := bind_eq_ok.mp h
    obtain ⟨_, hargs, h⟩ := bind_eq_ok.mp h
    obtain ⟨c, hc, h⟩ := bind_eq_ok.mp h
    cases c with
    | some c => cases h
    | none =>
      obtain ⟨costs, hcosts, h⟩ := bind_eq_ok.mp h
      obtain ⟨s, hs, h⟩ := bind_eq_ok.mp h
      exact ⟨a, s, costs, mapError_eq_ok.mp ha, mapError_eq_ok.mp hargs, mapError_eq_ok.mp hc,
        hcosts, mapError_eq_ok.mp hs, h⟩

/-- A plan is found valid by running it to its end, where the goals hold and all metrics have
values. -/
theorem finished_of_valid {p : Plan} {out : ValidationResult} (h : v.validate P p = .ok out)
    (hvalid : out.verdict = .valid) :
    ∃ r, v.run P 0 ⟨P.initialState, P.metrics.map fun _ => 0⟩ p = .ok (.finished r) ∧
      P.firstUnreachedGoal r.state = .ok none ∧ metricValues P r p.length = .ok out.metrics := by
  unfold validate at h
  split at h
  · cases h
    cases hvalid
  · obtain ⟨e, he, h⟩ := bind_eq_ok.mp h
    cases e with
    | blocked k i c =>
      cases h
      cases hvalid
    | finished r =>
      obtain ⟨c, hgoals, h⟩ := bind_eq_ok.mp (mapError_eq_ok.mp h)
      cases c with
      | some c =>
        cases h
        cases hvalid
      | none =>
        obtain ⟨values, hvalues, ⟨⟩⟩ := bind_eq_ok.mp h
        exact ⟨r, he, hgoals, hvalues⟩

theorem run_of_valid {p : Plan} {out : ValidationResult} (h : v.validate P p = .ok out)
    (hvalid : out.verdict = .valid) :
    ∃ r, v.run P 0 ⟨P.initialState, P.metrics.map fun _ => 0⟩ p = .ok (.finished r) := by
  obtain ⟨r, hr, _, _⟩ := finished_of_valid h hvalid
  exact ⟨r, hr⟩

end PlanValidator

/-- A step is applicable in a state: it is accepted, and the preconditions hold. -/
def Problem.Applicable (P : Problem) (s : State) (i : ActionInstance) : Prop :=
  ∃ a, P.action i.action = .ok a ∧ P.checkArguments a i.args = .ok () ∧
    P.firstFalse s (.ofArgs a.parameters i.args) a.preconditions = .ok none

namespace Grounder

namespace Makes

variable {G : Grounder} {P : Problem} {R : CompilerResult} {cs : List Candidate}
  {made gs : List Grounded}

/-! ## Runs -/

/-- The ground plan is run in lock step with the lifted plan, from any reachable state. -/
theorem run_follows (h : G.Makes P R cs made) (hP : P.NamesDistinct) (v : PlanValidator)
    (hgs : ∀ g ∈ gs, g ∈ made) (k : Nat) (r : Run) (hr : P.Reaches P.initialState r.state) :
    Follows (G.factsOf P = none)
      (RunEnd.Matches P R (groundExpr P.toVocabulary (G.factsOf P)))
      (v.run P k r (gs.map Grounded.lifted)) (v.run R.problem k r (gs.map Grounded.step)) := by
  induction gs generalizing k r with
  | nil => exact RunEnd.Matches.finished hr
  | cons g gs ih =>
    obtain ⟨hg, hgs⟩ := List.forall_mem_cons.mp hgs
    rw [List.map_cons, List.map_cons]
    cases hv : v.cancelled with
    | true =>
      rw [PlanValidator.run, PlanValidator.run, if_pos hv, if_pos hv]
      exact fun _ => trivial
    | false =>
      have hstands := h.kept.stands g hg
      have hfacts := factsHold_of_reaches (G := G) hr
      have hbinding : Binding.ofArgs g.action.parameters g.step.args = .empty := hstands.binding
      rw [PlanValidator.run_cons hv (h.action_lifted hP hg) (h.checkArguments_lifted hP hg),
        PlanValidator.run_cons hv (h.action_ground hg) (h.checkArguments_ground hg), hbinding,
        h.vocabulary]
      refine (hstands.firstFalse_follows hfacts).mapError_model.bind fun c c' hcc' => ?_
      cases hcc' with
      | some hc => exact RunEnd.Matches.blocked (h.mapBack_step hg) (h.action_lifted hP hg) hc
      | none =>
        refine (h.addCosts_follows hg hr r.costs).bind_same fun costs => ?_
        refine (hstands.apply_follows hfacts).mapError_model.answers.bind ?_
        rintro s _ ⟨rfl, hs⟩
        -- the step leads both runs to the same state, which is reachable again
        exact ih hgs (k + 1) ⟨s, costs⟩ (hr.apply (h.origin_mem hP hg) (mapError_eq_ok.mp hs))

/-- The steps of a finished run have ground actions. -/
theorem exists_made_of_run (h : G.Makes P R cs made) (hP : P.NamesDistinct) {v : PlanValidator}
    {p : Plan} {k : Nat} {r r' : Run} (hr : P.Reaches P.initialState r.state)
    (hrun : v.run P k r p = .ok (.finished r')) :
    ∃ gs : List Grounded, (∀ g ∈ gs, g ∈ made) ∧ p = gs.map Grounded.lifted := by
  induction p generalizing k r with
  | nil => exact ⟨[], List.forall_mem_nil _, rfl⟩
  | cons i p ih =>
    obtain ⟨a, s, costs, ha, hargs, hpre, _, happly, hrest⟩ := PlanValidator.run_cons_finished hrun
    rcases h.exists_or_pruned hP ha hargs with ⟨g, hg, rfl, _⟩ | hpruned
    · obtain ⟨gs, hgs, rfl⟩ := ih (hr.apply (Problem.action_eq_ok ha).1 happly) hrest
      exact ⟨g :: gs, List.forall_mem_cons.mpr ⟨hg, hgs⟩, rfl⟩
    · -- the step was made in a reachable state, where nothing pruned is applicable
      exact absurd hpre (groundAction_none_inapplicable hpruned (factsHold_of_reaches hr))

/-! ## Results -/

theorem judge_follows (h : G.Makes P R cs made) (v : PlanValidator) {r : Run}
    (hr : P.Reaches P.initialState r.state) (length : Nat) :
    Follows (G.factsOf P = none)
      (ValidationResult.Matches P R (groundExpr P.toVocabulary (G.factsOf P)))
      (v.judge P r length) (v.judge R.problem r length) := by
  have hgoals := h.goals.firstFalse_follows (factsHold_of_reaches hr)
  rw [PlanValidator.judge, PlanValidator.judge, Problem.firstUnreachedGoal,
    Problem.firstUnreachedGoal, h.vocabulary]
  refine hgoals.bind fun c c' hcc' => ?_
  cases hcc' with
  | some hc => exact ⟨rfl, .some (.goalNotReached hc), rfl, rfl⟩
  | none =>
    refine (h.metricValues_follows hr length).bind fun vs vs' hvs => ?_
    exact ⟨rfl, .none, rfl, hvs⟩

theorem simulate_follows (h : G.Makes P R cs made) (hP : P.NamesDistinct) (v : PlanValidator)
    (hgs : ∀ g ∈ gs, g ∈ made) :
    Follows (G.factsOf P = none)
      (ValidationResult.Matches P R (groundExpr P.toVocabulary (G.factsOf P)))
      (v.simulate P (gs.map Grounded.lifted)) (v.simulate R.problem (gs.map Grounded.step)) := by
  have hzero : (R.problem.metrics.map fun _ => (0 : Rat)) = P.metrics.map fun _ => 0 := by
    rw [List.map_const', List.map_const', h.metrics_ground.length_eq]
  rw [PlanValidator.simulate, PlanValidator.simulate, h.initialState, hzero]
  refine (h.run_follows hP v hgs 0 _ .refl).bind fun e e' hee' => ?_
  cases hee' with
  | finished hr =>
    have hjudge := h.judge_follows v hr gs.length
    simpa only [List.length_map] using hjudge.mapError_model
  | blocked hback ha hc =>
    exact ⟨rfl, .some (.inapplicable hback ha hc), rfl, rfl⟩

theorem validate_follows (h : G.Makes P R cs made) (hP : P.NamesDistinct) (v : PlanValidator)
    (hgs : ∀ g ∈ gs, g ∈ made) :
    Follows (G.factsOf P = none)
      (ValidationResult.Matches P R (groundExpr P.toVocabulary (G.factsOf P)))
      (v.validate P (gs.map Grounded.lifted)) (v.validate R.problem (gs.map Grounded.step)) := by
  have hempty : R.problem.metrics.isEmpty = P.metrics.isEmpty := by
    have hlen := h.metrics_ground.length_eq
    rw [Bool.eq_iff_iff, List.isEmpty_iff_length_eq_zero, List.isEmpty_iff_length_eq_zero, hlen]
  rw [PlanValidator.validate, PlanValidator.validate, hempty]
  split
  · exact ⟨rfl, .some .metricUnsupported, rfl, rfl⟩
  · exact h.simulate_follows hP v hgs

end Makes

/-! ## Validation on a problem and on its grounding -/

section Validation

open Examples

variable {G : Grounder} {P : Problem} {R : CompilerResult}

/-- Grounding is sound for validation, with pruning or without. A plan of ground actions can be
read back step by step, and whatever a validator answers for the plan read back, it answers for the
ground plan. -/
theorem ground_validation_sound (hP : P.Built) (h : G.ground P = .ok R) {p : Plan}
    (hp : ∀ i ∈ p, ∃ a ∈ R.problem.actions, i = .ground a.name) :
    ∃ l, R.mapBackPlan p = .ok l ∧ l.length = p.length ∧
      ∀ (v : PlanValidator) (r : ValidationResult), v.validate P l = .ok r →
        ∃ r', v.validate R.problem p = .ok r' ∧
          ValidationResult.Matches P R (groundExpr P.toVocabulary (G.factsOf P)) r r' := by
  obtain ⟨cs, made, hmakes⟩ := makes_of_ground h
  obtain ⟨gs, hgs, rfl⟩ := hmakes.exists_steps hp
  refine ⟨gs.map Grounded.lifted, hmakes.mapBackPlan_steps hgs, ?_, ?_⟩
  · rw [List.length_map, List.length_map]
  · intro v r hr
    exact (hmakes.validate_follows hP.namesDistinct v hgs).of_ok hr

theorem ground_validation_sound_roads :
    ∃ r', PlanValidator.validate ⟨⟨true⟩, false⟩ (groundRoads true).problem groundRoadPlan =
        .ok r' ∧
      r'.verdict = .valid ∧ r'.traceLength = 2 ∧ r'.metrics.map Prod.snd = [.number 4] := by
  obtain ⟨l, hl, _, hv⟩ :=
    ground_validation_sound roads_built (ground_roads true) (groundRoadPlan_actions true)
  have hback : (groundRoads true).mapBackPlan groundRoadPlan = .ok roadPlan := by decide +kernel
  obtain rfl := Except.ok.inj (hl.symm.trans hback)
  have hvalid : PlanValidator.validate ⟨⟨true⟩, false⟩ roads roadPlan =
      .ok ⟨.valid, "sequential-plan-validator-metrics", none, 2,
        roads.metrics.map fun m => (m, .number 4)⟩ := by decide +kernel
  obtain ⟨r', hr', hmatches⟩ := hv _ _ hvalid
  exact ⟨r', hr', hmatches.verdict, hmatches.traceLength, hmatches.values⟩

/-- Grounding loses no plan, with pruning or without. The steps of a valid plan have ground names,
the plan of these names is valid with the same metric values, and it is read back as the plan it
was made from. What was pruned is applicable in no reachable state. -/
theorem ground_validation_complete (hP : P.Built) (h : G.ground P = .ok R) :
    (∀ (v : PlanValidator) (l : Plan) (r : ValidationResult),
      v.validate P l = .ok r → r.verdict = .valid →
      ∃ names : List String, l.map R.names.groundName? = names.map some ∧
        R.mapBackPlan (names.map .ground) = .ok l ∧
        ∃ r', v.validate R.problem (names.map .ground) = .ok r' ∧ r'.verdict = .valid ∧
          r'.metrics.map Prod.snd = r.metrics.map Prod.snd) ∧
    ∀ (s : State) (i : ActionInstance), P.Reaches P.initialState s →
      R.names.groundName? i = none → ¬ P.Applicable s i := by
  obtain ⟨cs, made, hmakes⟩ := makes_of_ground h
  have hnames := hP.namesDistinct
  constructor
  · intro v l r hr hvalid
    obtain ⟨_, hrun⟩ := PlanValidator.run_of_valid hr hvalid
    obtain ⟨gs, hgs, rfl⟩ := hmakes.exists_made_of_run hnames .refl hrun
    have hsteps : (gs.map Grounded.name).map ActionInstance.ground = gs.map Grounded.step := by
      rw [List.map_map]
      rfl
    have hground : (gs.map Grounded.lifted).map R.names.groundName? =
        (gs.map Grounded.name).map some := by
      rw [List.map_map, List.map_map]
      exact List.map_congr_left fun g hg => hmakes.groundName?_lifted hnames (hgs g hg)
    obtain ⟨r', hr', hmatches⟩ := (hmakes.validate_follows hnames v hgs).of_ok hr
    refine ⟨gs.map Grounded.name, hground, ?_, r', ?_, ?_, hmatches.values⟩
    · rw [hsteps]
      exact hmakes.mapBackPlan_steps hgs
    · rw [hsteps]
      exact hr'
    · rw [hmatches.verdict]
      exact hvalid
  · rintro s i hs hnone ⟨a, ha, hargs, hpre⟩
    rcases hmakes.exists_or_pruned hnames ha hargs with ⟨g, hg, rfl, _⟩ | hpruned
    · rw [hmakes.groundName?_lifted hnames hg] at hnone
      cases hnone
    · exact groundAction_none_inapplicable hpruned (factsHold_of_reaches hs) hpre

theorem ground_validation_complete_roads :
    (∃ names : List String, roadPlan.map (groundRoads true).names.groundName? = names.map some ∧
      ∃ r', PlanValidator.validate ⟨⟨true⟩, false⟩ (groundRoads true).problem (names.map .ground) =
        .ok r' ∧ r'.verdict = .valid ∧ r'.metrics.map Prod.snd = [.number 4]) ∧
    ¬ roads.Applicable roads.initialState ⟨"drive", ["a", "c"]⟩ := by
  obtain ⟨hplans, hpruned⟩ := ground_validation_complete roads_built (ground_roads true)
  have hvalid : PlanValidator.validate ⟨⟨true⟩, false⟩ roads roadPlan =
      .ok ⟨.valid, "sequential-plan-validator-metrics", none, 2,
        roads.metrics.map fun m => (m, .number 4)⟩ := by decide +kernel
  have hnone : (groundRoads true).names.groundName? ⟨"drive", ["a", "c"]⟩ = none := by
    decide +kernel
  constructor
  · obtain ⟨names, hnames, _, r', hr', hverdict, hvalues⟩ := hplans _ _ _ hvalid rfl
    exact ⟨names, hnames, r', hr', hverdict, hvalues⟩
  · exact hpruned _ _ .refl hnone

/-- Without pruning grounding is exact. A plan of ground actions and the plan it is read back as
are both judged, with matching results, or both fail, with errors of the same kind; conditions are
reported with the arguments of the step in place of its parameters, and expanded. -/
theorem unpruned_validation_exact (hP : P.Built) (hG : G.options.pruneStatic = false)
    (h : G.ground P = .ok R) {p : Plan}
    (hp : ∀ i ∈ p, ∃ a ∈ R.problem.actions, i = .ground a.name) (v : PlanValidator) :
    ∃ l, R.mapBackPlan p = .ok l ∧
      ((∃ r r', v.validate P l = .ok r ∧ v.validate R.problem p = .ok r' ∧
        ValidationResult.Matches P R (fun b c => P.expand (c.substitute b)) r r') ∨
      ∃ e e', v.validate P l = .error e ∧ v.validate R.problem p = .error e' ∧ e.SameKind e') := by
  obtain ⟨cs, made, hmakes⟩ := makes_of_ground h
  obtain ⟨gs, hgs, rfl⟩ := hmakes.exists_steps hp
  refine ⟨gs.map Grounded.lifted, hmakes.mapBackPlan_steps hgs, ?_⟩
  have hfacts : G.factsOf P = none := by
    rw [factsOf, if_neg (Bool.eq_false_iff.mp hG)]
  have hplain : groundExpr P.toVocabulary none = fun b c => P.expand (c.substitute b) := by
    funext b c
    exact bind_pure _
  have hfollows := hmakes.validate_follows hP.namesDistinct v hgs
  -- without facts, to ground an expression is to substitute and to expand
  rw [hfacts, hplain, eq_self] at hfollows
  exact Follows.exact_iff.mp hfollows

/-- Driving from `a` to `b` twice is blocked at the second step. -/
theorem unpruned_validation_exact_roads :
    ∃ r r', PlanValidator.validate ⟨⟨true⟩, false⟩ roads
        [⟨"drive", ["a", "b"]⟩, ⟨"drive", ["a", "b"]⟩] = .ok r ∧
      PlanValidator.validate ⟨⟨true⟩, false⟩ (groundRoads false).problem
        [.ground "drive_a_b", .ground "drive_a_b"] = .ok r' ∧
      r.reason = some (.inapplicable 1 ⟨"drive", ["a", "b"]⟩ (.fluent "at" [.var "x"])) ∧
      ValidationResult.Matches roads (groundRoads false)
        (fun b c => roads.expand (c.substitute b)) r r' := by
  have hactions : ∀ i ∈ ([.ground "drive_a_b", .ground "drive_a_b"] : Plan),
      ∃ a ∈ (groundRoads false).problem.actions, i = .ground a.name := by decide +kernel
  obtain ⟨l, hl, houtcome⟩ :=
    unpruned_validation_exact roads_built rfl (ground_roads false) hactions ⟨⟨true⟩, false⟩
  have hback : (groundRoads false).mapBackPlan [.ground "drive_a_b", .ground "drive_a_b"] =
      .ok [⟨"drive", ["a", "b"]⟩, ⟨"drive", ["a", "b"]⟩] := by decide +kernel
  obtain rfl := Except.ok.inj (hl.symm.trans hback)
  have hblocked : PlanValidator.validate ⟨⟨true⟩, false⟩ roads
      [⟨"drive", ["a", "b"]⟩, ⟨"drive", ["a", "b"]⟩] =
      .ok ⟨.invalid, "sequential-plan-validator-metrics",
        some (.inapplicable 1 ⟨"drive", ["a", "b"]⟩ (.fluent "at" [.var "x"])), 1, []⟩ := by
    decide +kernel
  rcases houtcome with ⟨r, r', hr, hr', hmatches⟩ | ⟨e, _, he, _⟩
  · refine ⟨r, r', hr, hr', ?_, hmatches⟩
    rw [Except.ok.inj (hr.symm.trans hblocked)]
  · cases he.symm.trans hblocked

end Validation

end Grounder

end LiftedPlanning
