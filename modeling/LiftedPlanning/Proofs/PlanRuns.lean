import LiftedPlanning.Proofs.GroundValidation

/-!
# Runs of plans

A plan leads from a state to another one if each of its steps is accepted and applicable where it
is made (`Problem.Leads`), and it solves a problem if it leads from the initial state to one in
which all goals hold (`Problem.Solves`). Quality metrics play no part in this.

Where there are no metrics, validation comes to the same: a plan is found valid exactly if it
solves the problem (`PlanValidator.validate_of_solves`, `PlanValidator.solves_of_validate`).
Whatever a validation reports, nothing on the way was without a value (`Problem.Answers`).
-/

namespace LiftedPlanning

namespace Problem

/-- The steps of a plan lead from one state to another. -/
inductive Leads (P : Problem) : State → Plan → State → Prop where
  | nil {s : State} : Leads P s [] s
  | cons {s t u : State} {i : ActionInstance} {p : Plan} :
      P.successor s i = .ok (some t) → Leads P t p u → Leads P s (i :: p) u

def GoalsHold (P : Problem) (s : State) : Prop := P.firstUnreachedGoal s = .ok none

/-- A plan leads from the initial state to a state in which the goals hold. -/
def Solves (P : Problem) (p : Plan) : Prop :=
  ∃ s, P.Leads P.initialState p s ∧ P.GoalsHold s

/-- Along a plan everything that is looked at has a value: whether a step is applicable and what
it leads to, and whether the goals hold at the end. A step that is not applicable ends the run. -/
def Answers (P : Problem) (s : State) : Plan → Prop
  | [] => ∃ c, P.firstUnreachedGoal s = .ok c
  | i :: p => ∃ t, P.successor s i = .ok t ∧ ∀ u, t = some u → P.Answers u p

variable {P : Problem} {s t u : State} {p q : Plan} {i : ActionInstance}

/-! ## Steps -/

theorem successor_eq_some_iff :
    P.successor s i = .ok (some t) ↔
      ∃ a, P.action i.action = .ok a ∧ P.checkArguments a i.args = .ok () ∧
        P.firstFalse s (.ofArgs a.parameters i.args) a.preconditions = .ok none ∧
        P.apply s (.ofArgs a.parameters i.args) a = .ok t := by
  constructor
  · intro h
    obtain ⟨a, ha, h⟩ := bind_eq_ok.mp h
    obtain ⟨_, hargs, h⟩ := bind_eq_ok.mp h
    obtain ⟨hpre, happly⟩ := step_eq_some h
    exact ⟨a, ha, hargs, hpre, happly⟩
  · rintro ⟨a, ha, hargs, hpre, happly⟩
    refine bind_eq_ok.mpr ⟨a, ha, bind_eq_ok.mpr ⟨(), hargs, bind_eq_ok.mpr ⟨none, hpre, ?_⟩⟩⟩
    exact bind_eq_ok.mpr ⟨t, happly, rfl⟩

theorem leads_concat_iff :
    P.Leads s (p ++ [i]) u ↔ ∃ t, P.Leads s p t ∧ P.successor t i = .ok (some u) := by
  constructor
  · intro h
    induction p generalizing s with
    | nil =>
      cases h with
      | cons hi hrest =>
        cases hrest
        exact ⟨s, .nil, hi⟩
    | cons j p ih =>
      cases h with
      | cons hj hrest =>
        obtain ⟨t, ht, hi⟩ := ih hrest
        exact ⟨t, .cons hj ht, hi⟩
  · rintro ⟨t, ht, hi⟩
    induction ht with
    | nil => exact .cons hi .nil
    | cons hj _ ih => exact .cons hj (ih hi)

/-- Every step of a run is accepted. -/
theorem Leads.accepted (h : P.Leads s p t) :
    ∀ i ∈ p, ∃ a, P.action i.action = .ok a ∧ P.checkArguments a i.args = .ok () := by
  induction h with
  | nil => exact List.forall_mem_nil _
  | cons hi _ ih =>
    obtain ⟨a, ha, hargs, _, _⟩ := successor_eq_some_iff.mp hi
    exact List.forall_mem_cons.mpr ⟨⟨a, ha, hargs⟩, ih⟩

theorem Leads.answers (h : P.Leads s p t) (ht : P.GoalsHold t) : P.Answers s p := by
  induction h with
  | nil => exact ⟨none, ht⟩
  | cons hi _ ih =>
    refine ⟨_, hi, fun u hu => ?_⟩
    cases hu
    exact ih ht

/-! ## Metrics play no part -/

theorem leads_clearMetrics : P.clearMetrics.Leads s p t ↔ P.Leads s p t := by
  constructor
  · intro h
    induction h with
    | nil => exact .nil
    | cons hi _ ih => exact .cons hi ih
  · intro h
    induction h with
    | nil => exact .nil
    | cons hi _ ih => exact .cons hi ih

theorem answers_clearMetrics : P.clearMetrics.Answers s p ↔ P.Answers s p := by
  induction p generalizing s with
  | nil => exact Iff.rfl
  | cons i p ih =>
    exact exists_congr fun t => and_congr_right fun _ => forall_congr' fun u => imp_congr_right
      fun _ => ih

theorem solves_clearMetrics : P.clearMetrics.Solves p ↔ P.Solves p :=
  exists_congr fun _ => and_congr_left fun _ => leads_clearMetrics

end Problem

/-! ## Validation without metrics -/

namespace PlanValidator

variable {v : PlanValidator} {P : Problem} {p : Plan} {k length : Nat} {r : ValidationResult}
  {a : Run}

theorem addCosts_nil (hP : P.metrics = []) (s : State) (b : Binding) (a : Action) :
    addCosts P s b a [] = .ok [] := by
  rw [addCosts, hP]
  rfl

theorem metricValues_nil (hP : P.metrics = []) (a : Run) (length : Nat) :
    metricValues P a length = .ok [] := by
  rw [metricValues, hP]
  rfl

theorem judge_eq (hP : P.metrics = []) :
    v.judge P a length = (do
      match ← P.firstUnreachedGoal a.state with
      | some g => return ⟨.invalid, v.name, some (.goalNotReached g), length, []⟩
      | none => return ⟨.valid, v.name, none, length, []⟩) := by
  rw [judge, metricValues_nil hP]
  rfl

theorem judge_eq_ok (hP : P.metrics = []) : v.judge P a length = .ok r ↔
    P.firstUnreachedGoal a.state = .ok none ∧ r = ⟨.valid, v.name, none, length, []⟩ ∨
      ∃ g, P.firstUnreachedGoal a.state = .ok (some g) ∧
        r = ⟨.invalid, v.name, some (.goalNotReached g), length, []⟩ := by
  rw [judge_eq hP]
  cases P.firstUnreachedGoal a.state with
  | error e => simp [bind, Except.bind]
  | ok c => cases c <;> simp [bind, Except.bind, pure, Except.pure, eq_comm]

theorem judge_eq_error (hP : P.metrics = []) {m : ModelError} :
    v.judge P a length = .error m ↔ P.firstUnreachedGoal a.state = .error m := by
  rw [judge_eq hP]
  cases P.firstUnreachedGoal a.state with
  | error e => simp [bind, Except.bind]
  | ok c => cases c <;> simp [bind, Except.bind, pure, Except.pure]

theorem validate_eq (hP : P.metrics = []) : v.validate P p = (do
    match ← v.run P 0 ⟨P.initialState, []⟩ p with
    | .blocked k i c => return ⟨.invalid, v.name, some (.inapplicable k i c), k, []⟩
    | .finished a => (v.judge P a p.length).mapError .model) := by
  rw [validate, hP]
  show v.simulate P p = _
  rw [simulate, hP]
  rfl

theorem validate_eq_ok (hP : P.metrics = []) : v.validate P p = .ok r ↔
    (∃ k i c, v.run P 0 ⟨P.initialState, []⟩ p = .ok (.blocked k i c) ∧
      r = ⟨.invalid, v.name, some (.inapplicable k i c), k, []⟩) ∨
    ∃ a, v.run P 0 ⟨P.initialState, []⟩ p = .ok (.finished a) ∧ v.judge P a p.length = .ok r := by
  rw [validate_eq hP, bind_eq_ok]
  constructor
  · rintro ⟨e, he, h⟩
    cases e with
    | blocked k i c =>
      cases h
      exact .inl ⟨k, i, c, he, rfl⟩
    | finished a => exact .inr ⟨a, he, mapError_eq_ok.mp h⟩
  · rintro (⟨k, i, c, he, rfl⟩ | ⟨a, he, h⟩)
    · exact ⟨_, he, rfl⟩
    · exact ⟨_, he, mapError_eq_ok.mpr h⟩

theorem validate_eq_error (hP : P.metrics = []) {e : ValidationError} :
    v.validate P p = .error e ↔ v.run P 0 ⟨P.initialState, []⟩ p = .error e ∨
      ∃ a, v.run P 0 ⟨P.initialState, []⟩ p = .ok (.finished a) ∧
        ∃ m, v.judge P a p.length = .error m ∧ .model m = e := by
  rw [validate_eq hP, bind_eq_error]
  refine or_congr_right ?_
  constructor
  · rintro ⟨e', he, h⟩
    cases e' with
    | blocked k i c => cases h
    | finished a => exact ⟨a, he, mapError_eq_error.mp h⟩
  · rintro ⟨a, he, h⟩
    exact ⟨_, he, mapError_eq_error.mpr h⟩

/-! ## Runs and validity -/

theorem leads_of_run {a b : Run} (h : v.run P k a p = .ok (.finished b)) :
    P.Leads a.state p b.state := by
  induction p generalizing k a with
  | nil =>
    cases h
    exact .nil
  | cons i p ih =>
    obtain ⟨a, s, costs, ha, hargs, hpre, _, happly, hrest⟩ := run_cons_finished h
    exact .cons (Problem.successor_eq_some_iff.mpr ⟨a, ha, hargs, hpre, happly⟩) (ih hrest)

theorem run_of_leads (hv : v.cancelled = false) (hP : P.metrics = []) {s t : State}
    (h : P.Leads s p t) : v.run P k ⟨s, []⟩ p = .ok (.finished ⟨t, []⟩) := by
  induction h generalizing k with
  | nil => rfl
  | @cons s t u i p hi _ ih =>
    obtain ⟨a, ha, hargs, hpre, happly⟩ := Problem.successor_eq_some_iff.mp hi
    have hcosts := addCosts_nil hP s (.ofArgs a.parameters i.args) a
    rw [run_cons hv ha hargs]
    refine bind_eq_ok.mpr ⟨none, mapError_eq_ok.mpr hpre, bind_eq_ok.mpr ⟨[], hcosts, ?_⟩⟩
    exact bind_eq_ok.mpr ⟨t, mapError_eq_ok.mpr happly, ih⟩

/-- A run that does not fail, and after which the goals can be read, has asked for nothing that
has no value. -/
theorem answers_of_run {a : Run} {e : RunEnd} (h : v.run P k a p = .ok e)
    (hgoals : ∀ b, e = .finished b → ∃ c, P.firstUnreachedGoal b.state = .ok c) :
    P.Answers a.state p := by
  induction p generalizing k a with
  | nil =>
    cases h
    exact hgoals a rfl
  | cons i p ih =>
    rw [run] at h
    split at h
    · cases h
    · obtain ⟨act, ha, h⟩ := bind_eq_ok.mp h
      obtain ⟨_, hargs, h⟩ := bind_eq_ok.mp h
      obtain ⟨c, hc, h⟩ := bind_eq_ok.mp h
      replace ha := mapError_eq_ok.mp ha
      replace hargs := mapError_eq_ok.mp hargs
      replace hc := mapError_eq_ok.mp hc
      cases c with
      | some c =>
        have hblocked : P.successor a.state i = .ok none :=
          bind_eq_ok.mpr ⟨act, ha, bind_eq_ok.mpr ⟨(), hargs, bind_eq_ok.mpr ⟨_, hc, rfl⟩⟩⟩
        refine ⟨none, hblocked, fun u hu => ?_⟩
        cases hu
      | none =>
        obtain ⟨costs, _, h⟩ := bind_eq_ok.mp h
        obtain ⟨s, hs, h⟩ := bind_eq_ok.mp h
        have hstep : P.successor a.state i = .ok (some s) :=
          Problem.successor_eq_some_iff.mpr ⟨act, ha, hargs, hc, mapError_eq_ok.mp hs⟩
        refine ⟨some s, hstep, fun u hu => ?_⟩
        cases hu
        exact ih h

/-- Whatever a validation reports, nothing without a value was asked for. -/
theorem answers_of_validate (hP : P.metrics = []) (h : v.validate P p = .ok r) :
    P.Answers P.initialState p := by
  rw [validate_eq hP] at h
  obtain ⟨e, he, h⟩ := bind_eq_ok.mp h
  refine answers_of_run he fun b hb => ?_
  subst hb
  obtain ⟨c, hc, _⟩ := bind_eq_ok.mp (mapError_eq_ok.mp h)
  exact ⟨c, hc⟩

/-- A plan that is found valid solves the problem. -/
theorem solves_of_validate (h : v.validate P p = .ok r) (hvalid : r.verdict = .valid) :
    P.Solves p := by
  obtain ⟨b, hrun, hgoals, _⟩ := finished_of_valid h hvalid
  exact ⟨b.state, leads_of_run hrun, hgoals⟩

/-- A plan that solves a problem without metrics is found valid, with all its steps made. -/
theorem validate_of_solves (hv : v.cancelled = false) (hP : P.metrics = []) (h : P.Solves p) :
    v.validate P p = .ok ⟨.valid, v.name, none, p.length, []⟩ := by
  obtain ⟨s, hleads, hgoals⟩ := h
  have hjudge : v.judge P ⟨s, []⟩ p.length = .ok ⟨.valid, v.name, none, p.length, []⟩ :=
    (judge_eq_ok hP).mpr (.inl ⟨hgoals, rfl⟩)
  exact (validate_eq_ok hP).mpr (.inr ⟨_, run_of_leads hv hP hleads, hjudge⟩)

end PlanValidator

end LiftedPlanning
