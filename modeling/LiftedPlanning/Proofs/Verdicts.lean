import LiftedPlanning.Proofs.PlanRuns

/-!
# Verdicts

Validation and the transition function of a problem look at the same things, but each in its own
code. Here the verdict on a plan is read off the transition function alone: off the states to which
the steps lead from the initial one, and off the first step that is not made (`Problem.Comes`,
`Problem.Halts`). This is for problems without metrics; otherwise costs that have no value can end a
validation as well.

A run ends before its last step in one way at most, namely at the first step for which the
transition function gives no state (`PlanValidator.run_halts_iff`). What stands after that step in
the plan does not matter.
-/

namespace LiftedPlanning

/-! ## The first condition that fails -/

namespace Vocabulary

variable {V : Vocabulary} {s : State} {b : Binding} {es : List Expr} {c : Expr}

def FirstToFail (V : Vocabulary) (s : State) (b : Binding) (es : List Expr) (c : Expr) : Prop :=
  ∃ before after, es = before ++ c :: after ∧ (∀ e ∈ before, V.holds s b e = .ok true) ∧
    V.holds s b c = .ok false

theorem firstFalse_eq_none :
    V.firstFalse s b es = .ok none ↔ ∀ e ∈ es, V.holds s b e = .ok true := by
  induction es with
  | nil => simp [firstFalse]
  | cons e es ih =>
    rw [firstFalse, List.forall_mem_cons, ← ih, bind_eq_ok]
    constructor
    · rintro ⟨p, hp, h⟩
      cases p with
      | true => exact ⟨hp, h⟩
      | false => cases h
    · rintro ⟨hp, h⟩
      exact ⟨true, hp, h⟩

theorem firstFalse_eq_some : V.firstFalse s b es = .ok (some c) ↔ V.FirstToFail s b es c := by
  induction es with
  | nil => simp [firstFalse, FirstToFail]
  | cons e es ih =>
    rw [firstFalse, bind_eq_ok]
    constructor
    · rintro ⟨p, hp, h⟩
      cases p with
      | true =>
        obtain ⟨before, after, rfl, hbefore, hc⟩ := ih.mp h
        exact ⟨e :: before, after, rfl, List.forall_mem_cons.mpr ⟨hp, hbefore⟩, hc⟩
      | false =>
        cases h
        exact ⟨[], es, rfl, List.forall_mem_nil _, hp⟩
    · rintro ⟨before, after, hsplit, hbefore, hc⟩
      cases before with
      | nil =>
        obtain ⟨rfl, rfl⟩ := List.cons.inj hsplit
        exact ⟨false, hc, rfl⟩
      | cons d before =>
        obtain ⟨rfl, rfl⟩ := List.cons.inj hsplit
        obtain ⟨hd, hbefore⟩ := List.forall_mem_cons.mp hbefore
        exact ⟨true, hd, ih.mpr ⟨before, after, rfl, hbefore, hc⟩⟩

end Vocabulary

/-! ## Where a run stops -/

namespace Problem

/-- Step number `k` of a plan is `i`, and the steps before it lead to `t`. -/
structure Comes (P : Problem) (s : State) (p : Plan) (k : Nat) (i : ActionInstance) (t : State) :
    Prop where
  step : p[k]? = some i
  leads : P.Leads s (p.take k) t

/-- A precondition of a step is the first that does not hold. -/
def Unmet (P : Problem) (s : State) (i : ActionInstance) (c : Expr) : Prop :=
  ∃ a, P.action i.action = .ok a ∧
    P.FirstToFail s (.ofArgs a.parameters i.args) a.preconditions c

/-- How a run ends at step number `k` if the step is not made. -/
inductive Halts (P : Problem) (s : State) (i : ActionInstance) (k : Nat) :
    Except ValidationError RunEnd → Prop where
  | blocked {c : Expr} : P.successor s i = .ok none → P.Unmet s i c →
      Halts P s i k (.ok (.blocked k i c))
  | failed {e : ModelError} : P.successor s i = .error e → Halts P s i k (.error (.model e))

variable {P : Problem} {s t : State} {p : Plan} {i j : ActionInstance} {k : Nat}

theorem comes_zero : P.Comes s (i :: p) 0 j t ↔ j = i ∧ t = s := by
  constructor
  · rintro ⟨hstep, hleads⟩
    cases hleads
    exact ⟨(Option.some.inj hstep).symm, rfl⟩
  · rintro ⟨rfl, rfl⟩
    exact ⟨rfl, .nil⟩

theorem comes_succ :
    P.Comes s (i :: p) (k + 1) j t ↔ ∃ u, P.successor s i = .ok (some u) ∧ P.Comes u p k j t := by
  constructor
  · rintro ⟨hstep, hleads⟩
    cases hleads with
    | cons hi hrest => exact ⟨_, hi, hstep, hrest⟩
  · rintro ⟨u, hi, hstep, hleads⟩
    exact ⟨hstep, .cons hi hleads⟩

theorem Unmet.unique {c d : Expr} (hc : P.Unmet s i c) (hd : P.Unmet s i d) : c = d := by
  obtain ⟨a, ha, hc⟩ := hc
  obtain ⟨_, ha', hd⟩ := hd
  obtain rfl := Except.ok.inj (ha.symm.trans ha')
  have hc := Vocabulary.firstFalse_eq_some.mpr hc
  have hd := Vocabulary.firstFalse_eq_some.mpr hd
  exact Option.some.inj (Except.ok.inj (hc.symm.trans hd))

namespace Halts

variable {x y : Except ValidationError RunEnd}

theorem ne_some (h : P.Halts s i k x) : P.successor s i ≠ .ok (some t) := by
  intro hi
  cases h with
  | blocked hnone _ => cases hnone.symm.trans hi
  | failed herror => cases herror.symm.trans hi

theorem unique (hx : P.Halts s i k x) (hy : P.Halts s i k y) : x = y := by
  cases hx with
  | blocked hnone hc =>
    cases hy with
    | blocked _ hd => rw [hc.unique hd]
    | failed herror => cases herror.symm.trans hnone
  | failed herror =>
    cases hy with
    | blocked hnone _ => cases herror.symm.trans hnone
    | failed herror' => rw [Except.error.inj (herror.symm.trans herror')]

end Halts

end Problem

namespace PlanValidator

variable {v : PlanValidator} {P : Problem} {s t : State} {p : Plan} {i : ActionInstance} {k n : Nat}
  {x : Except ValidationError RunEnd}

/-! ## One step -/

theorem run_of_some (hv : v.cancelled = false) (hP : P.metrics = [])
    (h : P.successor s i = .ok (some t)) :
    v.run P k ⟨s, []⟩ (i :: p) = v.run P (k + 1) ⟨t, []⟩ p := by
  obtain ⟨a, ha, hargs, hpre, happly⟩ := Problem.successor_eq_some_iff.mp h
  rw [run_cons hv ha hargs]
  show (P.firstFalse s _ _).mapError ValidationError.model >>= _ = _
  rw [hpre]
  show addCosts P s _ a [] >>= _ = _
  rw [addCosts_nil hP]
  show (P.apply s _ a).mapError ValidationError.model >>= _ = _
  rw [happly]
  rfl

theorem halts_of_none (hv : v.cancelled = false) (h : P.successor s i = .ok none) :
    P.Halts s i k (v.run P k ⟨s, []⟩ (i :: p)) := by
  obtain ⟨a, ha, hstep⟩ := bind_eq_ok.mp h
  obtain ⟨_, hargs, hstep⟩ := bind_eq_ok.mp hstep
  obtain ⟨c, hpre, hstep⟩ := bind_eq_ok.mp hstep
  cases c with
  | none =>
    obtain ⟨_, _, ⟨⟩⟩ := bind_eq_ok.mp hstep
  | some c =>
    have hrun : v.run P k ⟨s, []⟩ (i :: p) = .ok (.blocked k i c) := by
      rw [run_cons hv ha hargs]
      exact bind_eq_ok.mpr ⟨_, mapError_eq_ok.mpr hpre, rfl⟩
    rw [hrun]
    exact .blocked h ⟨a, ha, Vocabulary.firstFalse_eq_some.mp hpre⟩

theorem halts_of_error (hv : v.cancelled = false) (hP : P.metrics = []) {e : ModelError}
    (h : P.successor s i = .error e) :
    P.Halts s i k (v.run P k ⟨s, []⟩ (i :: p)) := by
  have hwrapped : ∀ {α : Type} {y : Except ModelError α}, y = .error e →
      y.mapError ValidationError.model = .error (.model e) :=
    fun hy => mapError_eq_error.mpr ⟨e, hy, rfl⟩
  -- the run looks at the same things as the transition function, in the same order
  have hrun : v.run P k ⟨s, []⟩ (i :: p) = .error (.model e) := by
    rw [run, if_neg (Bool.eq_false_iff.mp hv)]
    rcases bind_eq_error.mp h with ha | ⟨a, ha, hstep⟩
    · exact bind_eq_error.mpr (.inl (hwrapped ha))
    refine bind_eq_error.mpr (.inr ⟨a, mapError_eq_ok.mpr ha, ?_⟩)
    rcases bind_eq_error.mp hstep with hargs | ⟨_, hargs, hstep⟩
    · exact bind_eq_error.mpr (.inl (hwrapped hargs))
    refine bind_eq_error.mpr (.inr ⟨(), mapError_eq_ok.mpr hargs, ?_⟩)
    rcases bind_eq_error.mp hstep with hpre | ⟨c, hpre, hstep⟩
    · exact bind_eq_error.mpr (.inl (hwrapped hpre))
    refine bind_eq_error.mpr (.inr ⟨c, mapError_eq_ok.mpr hpre, ?_⟩)
    cases c with
    | some c => cases hstep
    | none =>
      rcases bind_eq_error.mp hstep with happly | ⟨_, _, ⟨⟩⟩
      refine bind_eq_error.mpr (.inr ⟨[], addCosts_nil hP .., ?_⟩)
      exact bind_eq_error.mpr (.inl (hwrapped happly))
  rw [hrun]
  exact .failed h

theorem halts_of_unmade (hv : v.cancelled = false) (hP : P.metrics = [])
    (h : ¬ ∃ t, P.successor s i = .ok (some t)) :
    P.Halts s i k (v.run P k ⟨s, []⟩ (i :: p)) := by
  cases hi : P.successor s i with
  | error e => exact halts_of_error hv hP hi
  | ok next =>
    cases next with
    | none => exact halts_of_none hv hi
    | some t => exact absurd ⟨t, hi⟩ h

/-! ## Runs -/

/-- A run that is not finished has ended at a step that was not made, and it ends at the first such
step. -/
theorem run_halts_iff (hv : v.cancelled = false) (hP : P.metrics = [])
    (hx : ∀ r, x ≠ .ok (.finished r)) :
    v.run P n ⟨s, []⟩ p = x ↔ ∃ k i t, P.Comes s p k i t ∧ P.Halts t i (n + k) x := by
  induction p generalizing s n with
  | nil =>
    constructor
    · intro h
      exact absurd h.symm (hx _)
    · rintro ⟨k, i, t, ⟨hstep, _⟩, _⟩
      cases hstep
  | cons i p ih =>
    by_cases hmade : ∃ u, P.successor s i = .ok (some u)
    · obtain ⟨u, hu⟩ := hmade
      rw [run_of_some hv hP hu, ih]
      constructor
      · rintro ⟨k, j, t, hcomes, hhalts⟩
        refine ⟨k + 1, j, t, Problem.comes_succ.mpr ⟨u, hu, hcomes⟩, ?_⟩
        rwa [← Nat.add_assoc, Nat.add_right_comm]
      · rintro ⟨k, j, t, hcomes, hhalts⟩
        cases k with
        | zero =>
          obtain ⟨rfl, rfl⟩ := Problem.comes_zero.mp hcomes
          exact absurd hu hhalts.ne_some
        | succ k =>
          obtain ⟨u', hu', hcomes⟩ := Problem.comes_succ.mp hcomes
          obtain rfl := Option.some.inj (Except.ok.inj (hu.symm.trans hu'))
          refine ⟨k, j, t, hcomes, ?_⟩
          rwa [← Nat.add_assoc, Nat.add_right_comm] at hhalts
    · have hhere : P.Halts s i n (v.run P n ⟨s, []⟩ (i :: p)) := halts_of_unmade hv hP hmade
      constructor
      · rintro rfl
        exact ⟨0, i, s, Problem.comes_zero.mpr ⟨rfl, rfl⟩, hhere⟩
      · rintro ⟨k, j, t, hcomes, hhalts⟩
        cases k with
        | zero =>
          obtain ⟨rfl, rfl⟩ := Problem.comes_zero.mp hcomes
          exact hhere.unique hhalts
        | succ k =>
          obtain ⟨u, hu, _⟩ := Problem.comes_succ.mp hcomes
          exact absurd ⟨u, hu⟩ hmade

theorem run_zero_halts_iff (hv : v.cancelled = false) (hP : P.metrics = [])
    (hx : ∀ r, x ≠ .ok (.finished r)) :
    v.run P 0 ⟨s, []⟩ p = x ↔ ∃ k i t, P.Comes s p k i t ∧ P.Halts t i k x := by
  simpa only [Nat.zero_add] using run_halts_iff hv hP hx (n := 0)

/-! ## Results -/

theorem exists_finished_iff (hv : v.cancelled = false) (hP : P.metrics = []) {Q : State → Prop} :
    (∃ r, v.run P n ⟨s, []⟩ p = .ok (.finished r) ∧ Q r.state) ↔ ∃ t, P.Leads s p t ∧ Q t := by
  constructor
  · rintro ⟨r, hr, hQ⟩
    exact ⟨r.state, leads_of_run hr, hQ⟩
  · rintro ⟨t, ht, hQ⟩
    exact ⟨⟨t, []⟩, run_of_leads hv hP ht, hQ⟩

/-- A plan is found valid, after some number of steps. -/
def Accepts (v : PlanValidator) (P : Problem) (p : Plan) (length : Nat) : Prop :=
  ∃ r, v.validate P p = .ok r ∧ r.verdict = .valid ∧ r.traceLength = length

def Rejects (v : PlanValidator) (P : Problem) (p : Plan) (check : FailedCheck) (length : Nat) :
    Prop :=
  ∃ r, v.validate P p = .ok r ∧ r.verdict = .invalid ∧ r.reason = some check ∧
    r.traceLength = length

theorem accepts_iff (hv : v.cancelled = false) (hP : P.metrics = []) :
    v.Accepts P p p.length ↔ P.Solves p := by
  constructor
  · rintro ⟨r, hr, hvalid, _⟩
    exact solves_of_validate hr hvalid
  · intro h
    exact ⟨_, validate_of_solves hv hP h, rfl, rfl⟩

theorem rejects_goal_iff (hv : v.cancelled = false) (hP : P.metrics = []) {g : Expr} :
    v.Rejects P p (.goalNotReached g) p.length ↔
      ∃ s, P.Leads P.initialState p s ∧ P.firstUnreachedGoal s = .ok (some g) := by
  rw [← exists_finished_iff hv hP (n := 0)]
  constructor
  · rintro ⟨r, hr, _, hreason, _⟩
    rcases (validate_eq_ok hP).mp hr with ⟨k, i, c, _, rfl⟩ | ⟨a, ha, hjudge⟩
    · cases hreason
    rcases (judge_eq_ok hP).mp hjudge with ⟨_, rfl⟩ | ⟨g', hgoal, rfl⟩
    · cases hreason
    · cases hreason
      exact ⟨a, ha, hgoal⟩
  · rintro ⟨a, ha, hgoal⟩
    have hjudge : v.judge P a p.length =
        .ok ⟨.invalid, v.name, some (.goalNotReached g), p.length, []⟩ :=
      (judge_eq_ok hP).mpr (.inr ⟨g, hgoal, rfl⟩)
    exact ⟨_, (validate_eq_ok hP).mpr (.inr ⟨a, ha, hjudge⟩), rfl, rfl, rfl⟩

theorem rejects_inapplicable_iff (hv : v.cancelled = false) (hP : P.metrics = []) {c : Expr} :
    v.Rejects P p (.inapplicable k i c) k ↔
      ∃ s, P.Comes P.initialState p k i s ∧ P.successor s i = .ok none ∧ P.Unmet s i c := by
  have hrun : v.run P 0 ⟨P.initialState, []⟩ p = .ok (.blocked k i c) ↔ _ :=
    run_zero_halts_iff hv hP nofun
  constructor
  · rintro ⟨r, hr, _, hreason, _⟩
    rcases (validate_eq_ok hP).mp hr with ⟨k', i', c', hblocked, rfl⟩ | ⟨a, _, hjudge⟩
    · cases hreason
      obtain ⟨k', i', s, hcomes, hhalts⟩ := hrun.mp hblocked
      cases hhalts with
      | blocked hnone hc => exact ⟨s, hcomes, hnone, hc⟩
    · rcases (judge_eq_ok hP).mp hjudge with ⟨_, rfl⟩ | ⟨g, _, rfl⟩ <;> cases hreason
  · rintro ⟨s, hcomes, hnone, hc⟩
    have hblocked := hrun.mpr ⟨k, i, s, hcomes, .blocked hnone hc⟩
    exact ⟨_, (validate_eq_ok hP).mpr (.inl ⟨k, i, c, hblocked, rfl⟩), rfl, rfl, rfl⟩

theorem validate_error_iff (hv : v.cancelled = false) (hP : P.metrics = []) {e : ValidationError} :
    v.validate P p = .error e ↔ ∃ m, e = .model m ∧
      ((∃ k i s, P.Comes P.initialState p k i s ∧ P.successor s i = .error m) ∨
        ∃ s, P.Leads P.initialState p s ∧ P.firstUnreachedGoal s = .error m) := by
  rw [validate_eq_error hP, run_zero_halts_iff hv hP (by rintro r ⟨⟩)]
  constructor
  · rintro (⟨k, i, s, hcomes, hhalts⟩ | ⟨a, ha, m, hjudge, rfl⟩)
    · cases hhalts with
      | failed herror => exact ⟨_, rfl, .inl ⟨k, i, s, hcomes, herror⟩⟩
    · exact ⟨m, rfl, .inr ⟨a.state, leads_of_run ha, (judge_eq_error hP).mp hjudge⟩⟩
  · rintro ⟨m, rfl, ⟨k, i, s, hcomes, herror⟩ | hgoal⟩
    · exact .inl ⟨k, i, s, hcomes, .failed herror⟩
    · obtain ⟨a, ha, hgoal⟩ := (exists_finished_iff hv hP).mpr hgoal
      exact .inr ⟨a, ha, m, (judge_eq_error hP).mpr hgoal, rfl⟩

/-- Without metrics, the verdict on a plan is what the transition function makes of it. The plan is
found valid if all steps are made and all goals hold at the end. It is found invalid at the first
step that is not made, by the first precondition that does not hold there, or else at the end, by
the first goal that does not hold. An error of the validation is the first error on this way, of a
step or of the goals. -/
theorem verdict_of_run (hv : v.cancelled = false) (hP : P.metrics = []) (p : Plan) :
    (v.Accepts P p p.length ↔
      ∃ s, P.Leads P.initialState p s ∧ ∀ g ∈ P.goals, P.holds s .empty g = .ok true) ∧
    (∀ k i c, v.Rejects P p (.inapplicable k i c) k ↔
      ∃ s, P.Comes P.initialState p k i s ∧ P.successor s i = .ok none ∧ P.Unmet s i c) ∧
    (∀ g, v.Rejects P p (.goalNotReached g) p.length ↔
      ∃ s, P.Leads P.initialState p s ∧ P.FirstToFail s .empty P.goals g) ∧
    ∀ e, v.validate P p = .error e ↔ ∃ m, e = .model m ∧
      ((∃ k i s, P.Comes P.initialState p k i s ∧ P.successor s i = .error m) ∨
        ∃ s, P.Leads P.initialState p s ∧ P.firstUnreachedGoal s = .error m) := by
  refine ⟨?valid, fun k i c => rejects_inapplicable_iff hv hP, fun g => ?goal,
    fun e => validate_error_iff hv hP⟩
  case valid =>
    rw [accepts_iff hv hP]
    exact exists_congr fun s => and_congr_right fun _ => Vocabulary.firstFalse_eq_none
  case goal =>
    rw [rejects_goal_iff hv hP]
    exact exists_congr fun s => and_congr_right fun _ => Vocabulary.firstFalse_eq_some

open Examples in
/-- A jug can be poured out only once. The sum of what is spilt is undefined, so that spilling the
second jug has no result; the step after it is not looked at. -/
theorem verdict_of_run_jugs :
    (∃ s, jugs.clearMetrics.Comes jugs.initialState [pouring "j" "k", pouring "j" "k"] 1
        (pouring "j" "k") s ∧
      jugs.clearMetrics.successor s (pouring "j" "k") = .ok none ∧
      jugs.clearMetrics.Unmet s (pouring "j" "k") (.binary .lt (.number 0) (level (.var "x")))) ∧
    PlanValidator.validate {} jugs.clearMetrics
        [pouring "j" "k", spilling "k", pouring "j" "k"] =
      .error (.model (.undefinedValue ⟨"spilt", []⟩)) := by
  constructor
  · have hverdict := verdict_of_run (v := {}) (P := jugs.clearMetrics) rfl rfl
      [pouring "j" "k", pouring "j" "k"]
    refine (hverdict.2.1 1 _ _).mp ⟨⟨.invalid, "sequential-plan-validator", _, 1, []⟩, ?_, rfl, rfl,
      rfl⟩
    decide +kernel
  · have hverdict := verdict_of_run (v := {}) (P := jugs.clearMetrics) rfl rfl
      [pouring "j" "k", spilling "k", pouring "j" "k"]
    have hpour : jugs.clearMetrics.successor jugs.initialState (pouring "j" "k") =
        .ok (some (.ofList [(⟨"level", ["k"]⟩, .number 5)])) := by decide +kernel
    have hspill : jugs.clearMetrics.successor (.ofList [(⟨"level", ["k"]⟩, .number 5)])
        (spilling "k") = .error (.undefinedValue ⟨"spilt", []⟩) := by decide +kernel
    exact (hverdict.2.2.2 _).mpr ⟨_, rfl, .inl ⟨1, _, _, ⟨rfl, .cons hpour .nil⟩, hspill⟩⟩

end PlanValidator

end LiftedPlanning
