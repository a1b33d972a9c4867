import LiftedPlanning.Proofs.GroundSearch
import LiftedPlanning.Proofs.SearchOutcome
import LiftedPlanning.Proofs.Verdicts

/-!
# Plans found on a grounding

A plan found on a grounding is read back as a plan for the lifted problem. Without pruning that
plan is valid. With pruning it need not be: an operand that decides a condition may have been
folded away together with one that has no value, so that the ground condition holds where the
lifted one fails (`Grounder.pruned_round_trip_fails`). This is the only way in which the round
trip can go wrong (`Grounder.plan_transfer`): the plan read back is valid, or its validation ends
with an error of evaluation.
-/

namespace LiftedPlanning

/-! ## Failing validations -/

namespace PlanValidator

variable {v : PlanValidator} {P : Problem} {p : Plan} {e : ValidationError}

/-- Without metrics, a validation that is not cancelled fails in evaluation only. -/
theorem model_of_validate (hv : v.cancelled = false) (hP : P.metrics = [])
    (h : v.validate P p = .error e) : ∃ m, e = .model m := by
  obtain ⟨m, rfl, _⟩ := (validate_error_iff hv hP).mp h
  exact ⟨m, rfl⟩

end PlanValidator

namespace Grounder

namespace Makes

variable {G : Grounder} {P : Problem} {R : CompilerResult} {cs : List Candidate}
  {made gs : List Grounded} {s t : State}

theorem namesDistinct_ground (h : G.Makes P R cs made) (hP : P.NamesDistinct) :
    R.problem.NamesDistinct where
  objects := by
    rw [h.vocabulary]
    exact hP.objects
  actions := by
    rw [h.actions, List.map_map]
    exact h.distinct

/-- A plan that solves the grounding consists of steps that are ground actions. -/
theorem exists_steps_of_solves (h : G.Makes P R cs made) (hP : P.NamesDistinct) {p : Plan}
    (hp : R.problem.Solves p) :
    ∃ gs : List Grounded, (∀ g ∈ gs, g ∈ made) ∧ p = gs.map Grounded.step := by
  refine h.exists_steps fun i hi => ?_
  have hmem := mem_steps_of_solves (h.namesDistinct_ground hP) h.candidates_ground hp i hi
  rw [List.map_map] at hmem
  obtain ⟨g, hg, rfl⟩ := List.mem_map.mp hmem
  refine ⟨g.action, ?_, rfl⟩
  rw [h.actions]
  exact List.mem_map_of_mem hg

/-! ## Runs read back -/

theorem successor_follows (h : G.Makes P R cs made) (hP : P.NamesDistinct) {g : Grounded}
    (hg : g ∈ made) (hs : P.Reaches P.initialState s) :
    Follows (G.factsOf P = none) (· = ·) (P.successor s g.lifted)
      (R.problem.successor s g.step) := by
  have hstands := h.kept.stands g hg
  have hlifted : P.successor s g.lifted = P.step s g.binding g.origin :=
    successor_step hP h.candidates (h.mem_candidates hg) s
  have hground : R.problem.successor s g.step = P.step s .empty g.action := by
    have hcandidate : g.groundCandidate ∈ made.map Grounded.groundCandidate :=
      List.mem_map_of_mem hg
    have hbinding : g.groundCandidate.binding = .empty := hstands.binding
    have hstep := successor_step (h.namesDistinct_ground hP) h.candidates_ground hcandidate s
    rw [hbinding, h.vocabulary] at hstep
    exact hstep
  rw [hlifted, hground]
  exact hstands.step_follows (factsHold_of_reaches hs)

theorem firstUnreachedGoal_follows (h : G.Makes P R cs made) (hs : P.Reaches P.initialState s) :
    Follows (G.factsOf P = none)
      (Option.Rel fun c c' => groundExpr P.toVocabulary (G.factsOf P) .empty c = .ok c')
      (P.firstUnreachedGoal s) (R.problem.firstUnreachedGoal s) := by
  rw [Problem.firstUnreachedGoal, Problem.firstUnreachedGoal, h.vocabulary]
  exact h.goals.firstFalse_follows (factsHold_of_reaches hs)

/-- A run on the grounding that ends with the goals is one on the lifted problem, unless it looks
at something there that has no value. Without pruning it cannot. -/
theorem leads_lifted (h : G.Makes P R cs made) (hP : P.NamesDistinct)
    (hgs : ∀ g ∈ gs, g ∈ made) (hs : P.Reaches P.initialState s)
    (hleads : R.problem.Leads s (gs.map Grounded.step) t) (ht : R.problem.GoalsHold t)
    (hanswers : G.factsOf P = none ∨ P.Answers s (gs.map Grounded.lifted)) :
    P.Leads s (gs.map Grounded.lifted) t ∧ P.GoalsHold t := by
  induction gs generalizing s with
  | nil =>
    cases hleads
    obtain ⟨c, hc, hnone⟩ := (h.firstUnreachedGoal_follows hs).of_ok_right ht hanswers
    cases hnone
    exact ⟨.nil, hc⟩
  | cons g gs ih =>
    obtain ⟨hg, hgs⟩ := List.forall_mem_cons.mp hgs
    cases hleads with
    | @cons _ u _ _ _ hi hrest =>
      have hstep : G.factsOf P = none ∨ ∃ t, P.successor s g.lifted = .ok t :=
        hanswers.imp id fun ⟨t, ht, _⟩ => ⟨t, ht⟩
      obtain ⟨_, hlifted, rfl⟩ := (h.successor_follows hP hg hs).of_ok_right hi hstep
      have hafter : G.factsOf P = none ∨ P.Answers u (gs.map Grounded.lifted) := by
        refine hanswers.imp id ?_
        rintro ⟨t, ht, hrest⟩
        cases hlifted.symm.trans ht
        exact hrest u rfl
      obtain ⟨hleads, hgoals⟩ := ih hgs (hs.successor hlifted) hrest hafter
      exact ⟨.cons hlifted hleads, hgoals⟩

end Makes

open Examples

/-- A plan found on a grounding is read back, step by step. What it is read back as is valid in the
lifted problem without metrics, with all its steps made, unless something that is looked at on the
way has no value. That happens with pruning only, and then validation fails with an error of
evaluation. -/
theorem plan_transfer {G : Grounder} {P : Problem} {R : CompilerResult} (hP : P.Built)
    (h : G.ground P = .ok R) {p : BreadthFirstPlanner} {a : PlanResult}
    (ha : p.solve R.problem = .ok a) {g : Plan} (hg : a.plan = some g) :
    ∃ l, R.mapBackPlan g = .ok l ∧ l.length = g.length ∧
      ∀ v : PlanValidator, v.cancelled = false →
        (P.Answers P.initialState l →
          v.validate P.clearMetrics l = .ok ⟨.valid, v.name, none, g.length, []⟩) ∧
        (¬ P.Answers P.initialState l → G.options.pruneStatic = true ∧
          ∃ e, v.validate P.clearMetrics l = .error (.model e)) := by
  have hnames := hP.namesDistinct
  obtain ⟨cs, made, hmakes⟩ := makes_of_ground h
  have hground := hmakes.namesDistinct_ground hnames
  have hstatus := BreadthFirstPlanner.solved_of_plan ha hg
  obtain ⟨_, g', _, hg', hsolves, _⟩ := BreadthFirstPlanner.best_of_solve hground ha hstatus
  obtain rfl : g' = g := Option.some.inj (hg'.symm.trans hg)
  obtain ⟨gs, hgs, rfl⟩ := hmakes.exists_steps_of_solves hnames hsolves
  refine ⟨gs.map Grounded.lifted, hmakes.mapBackPlan_steps hgs, ?_, fun v hv => ?_⟩
  · rw [List.length_map, List.length_map]
  -- where the lifted run has an answer, or must have one, the plan solves the lifted problem
  have hlifted (hanswers : G.factsOf P = none ∨
      P.Answers P.initialState (gs.map Grounded.lifted)) :
      P.Solves (gs.map Grounded.lifted) := by
    obtain ⟨t, ht, hgoals⟩ := hsolves
    rw [hmakes.initialState] at ht
    exact ⟨t, hmakes.leads_lifted hnames hgs .refl ht hgoals hanswers⟩
  constructor
  · intro hanswers
    have hsolves := Problem.solves_clearMetrics.mpr (hlifted (.inr hanswers))
    rw [PlanValidator.validate_of_solves hv rfl hsolves, List.length_map, List.length_map]
  · intro hanswers
    constructor
    · by_contra hprune
      have hfacts : G.factsOf P = none := if_neg hprune
      obtain ⟨t, ht, hgoals⟩ := hlifted (.inl hfacts)
      exact hanswers (ht.answers hgoals)
    · cases hout : v.validate P.clearMetrics (gs.map Grounded.lifted) with
      | ok r =>
        have hclear := PlanValidator.answers_of_validate rfl hout
        exact absurd (Problem.answers_clearMetrics.mp hclear) hanswers
      | error e =>
        obtain ⟨m, rfl⟩ := PlanValidator.model_of_validate hv rfl hout
        exact ⟨m, rfl⟩

theorem plan_transfer_roads :
    (groundRoads true).mapBackPlan groundRoadPlan = .ok roadPlan ∧
      PlanValidator.validate ⟨⟨true⟩, false⟩ roads.clearMetrics roadPlan =
        .ok ⟨.valid, "sequential-plan-validator-metrics", none, 2, []⟩ := by
  have hsolve : BreadthFirstPlanner.solve {} (groundRoads true).problem =
      .ok ⟨.solved, some groundRoadPlan, "breadth-first", 2, 2⟩ := by decide +kernel
  have hback : (groundRoads true).mapBackPlan groundRoadPlan = .ok roadPlan := by decide +kernel
  have hvalid : PlanValidator.validate {} roads.clearMetrics roadPlan =
      .ok ⟨.valid, "sequential-plan-validator", none, 2, []⟩ := by decide +kernel
  have hanswers : roads.Answers roads.initialState roadPlan :=
    Problem.answers_clearMetrics.mp (PlanValidator.answers_of_validate rfl hvalid)
  obtain ⟨l, hl, _, htransfer⟩ := plan_transfer roads_built (ground_roads true) hsolve rfl
  cases hback.symm.trans hl
  exact ⟨hback, (htransfer ⟨⟨true⟩, false⟩ rfl).1 hanswers⟩

end Grounder

/-! ## A round trip that fails -/

namespace Examples

/-- A lamp on the mains, with a battery of unknown charge. The goals are that it is switched on,
and that it has power from one or the other. -/
def lamp : Problem :=
  .build "lamp" [
    .addFluent (.predicate "on" []),
    .addFluent (.predicate "mains" []),
    .addFluent (.numeric "charge" [] none),
    .setTrue "mains" [],
    .addAction ⟨"switch", [], [], [makes "on" [] true]⟩,
    .addGoal (.fluent "on" []),
    .addGoal (.or [.ge (.fluent "charge" []) (.number 1), .fluent "mains" []])]

/-- The pruned grounding of the lamp, in which the second goal is gone. -/
def groundLamp : CompilerResult :=
  (Grounder.ground {} lamp).toOption.getD ⟨lamp, .empty, ""⟩

end Examples

namespace Grounder

open Examples

/-- Pruning folds the goal of power to true, since the lamp is on the mains. So the search on the
grounding finds a plan, but on the lifted problem the charge is asked for first. -/
theorem pruned_round_trip_fails :
    lamp.Built ∧ ground {} lamp = .ok groundLamp ∧
      BreadthFirstPlanner.solve {} groundLamp.problem =
        .ok ⟨.solved, some [.ground "switch"], "breadth-first", 1, 1⟩ ∧
      groundLamp.mapBackPlan [.ground "switch"] = .ok [⟨"switch", []⟩] ∧
      PlanValidator.validate {} lamp.clearMetrics [⟨"switch", []⟩] =
        .error (.model (.undefinedValue ⟨"charge", []⟩)) := by
  refine ⟨⟨_, _, rfl⟩, ?_, ?_, ?_, ?_⟩
  · decide +kernel
  · decide +kernel
  · decide +kernel
  · decide +kernel

end Grounder

end LiftedPlanning
