import LiftedPlanning.Proofs.Verdicts
import Mathlib.Algebra.Ring.Rat

/-!
# Values of metrics

What the metrics of a plan come to, said without the sums that a run carries along. A plan passes
through the states before its steps (`Problem.Passes`). Each action-cost metric prices every step in
the state before it, and its value is the sum of these costs; the other metrics are about the length
of the plan or the state at its end (`Problem.Measured`).

A run keeps one sum for each metric, in one list. The sums grow independently of each other
(`PlanValidator.accrues_of_run`), and none of them has any influence on the states.
-/

namespace LiftedPlanning

/-! ## Comparing lists along a third one -/

section Zip

variable {α β γ δ : Type} {ms : List α} {xs : List β} {ys : List γ} {zs : List δ}

theorem forall₂_zip_trans {R : α → β → γ → Prop} {S : α → γ → δ → Prop} {T : α → β → δ → Prop}
    (hR : List.Forall₂ (fun x y => R x.1 x.2 y) (ms.zip xs) ys)
    (hS : List.Forall₂ (fun y z => S y.1 y.2 z) (ms.zip ys) zs)
    (h : ∀ m x y z, R m x y → S m y z → T m x z) :
    List.Forall₂ (fun x z => T x.1 x.2 z) (ms.zip xs) zs := by
  induction ms generalizing xs ys zs with
  | nil =>
    cases hR
    cases hS
    exact .nil
  | cons m ms ih =>
    cases xs with
    | nil =>
      cases hR
      cases hS
      exact .nil
    | cons x xs =>
      cases hR with
      | cons hx hxs =>
        cases hS with
        | cons hy hys => exact .cons (h _ _ _ _ hx hy) (ih hxs hys)

theorem forall₂_zip_self {T : α → β → β → Prop} (hlength : xs.length = ms.length)
    (h : ∀ m x, T m x x) : List.Forall₂ (fun x y => T x.1 x.2 y) (ms.zip xs) xs := by
  induction ms generalizing xs with
  | nil =>
    obtain rfl := List.eq_nil_of_length_eq_zero hlength
    exact .nil
  | cons m ms ih =>
    cases xs with
    | nil => cases hlength
    | cons x xs => exact .cons (h m x) (ih (Nat.succ.inj hlength))

end Zip

/-! ## What metrics measure -/

namespace Problem

/-- A plan leads from one state to another through the states before its steps. -/
inductive Passes (P : Problem) : State → Plan → List State → State → Prop where
  | nil {s : State} : Passes P s [] [] s
  | cons {s t u : State} {i : ActionInstance} {p : Plan} {ss : List State} :
      P.successor s i = .ok (some t) → Passes P t p ss u → Passes P s (i :: p) (s :: ss) u

/-- A step costs `q` by a metric in the state before it: this is the value of the cost expression of
its action, which may be the default one, for the arguments of the step. -/
def StepCost (P : Problem) (m : QualityMetric) (s : State) (i : ActionInstance) (q : Rat) : Prop :=
  ∃ a cost, P.action i.action = .ok a ∧ m.actionCost a.name = some cost ∧
    P.evaluate s (.ofArgs a.parameters i.args) cost = .ok (.number q)

def StepCosts (P : Problem) (m : QualityMetric) (ss : List State) (p : Plan) (qs : List Rat) :
    Prop :=
  List.Forall₂ (fun x q => P.StepCost m x.1 x.2 q) (ss.zip p) qs

inductive Measured (P : Problem) (p : Plan) (ss : List State) (s : State) :
    QualityMetric → Value → Prop where
  | planLength : Measured P p ss s .planLength (.number p.length)
  | actionCosts {costs : SortedMap String Expr} {default : Option Expr} {qs : List Rat} :
      P.StepCosts (.actionCosts costs default) ss p qs →
      Measured P p ss s (.actionCosts costs default) (.number qs.sum)
  | minimizeFinal {e : Expr} {v : Value} : P.evaluate s .empty e = .ok v →
      Measured P p ss s (.minimizeFinal e) v
  | maximizeFinal {e : Expr} {v : Value} : P.evaluate s .empty e = .ok v →
      Measured P p ss s (.maximizeFinal e) v

/-- How the sum that is kept for a metric grows along a plan: only action costs add to it. -/
inductive Accrues (P : Problem) (p : Plan) (ss : List State) :
    QualityMetric → Rat → Rat → Prop where
  | planLength {q : Rat} : Accrues P p ss .planLength q q
  | actionCosts {costs : SortedMap String Expr} {default : Option Expr} {q : Rat}
      {qs : List Rat} : P.StepCosts (.actionCosts costs default) ss p qs →
      Accrues P p ss (.actionCosts costs default) q (q + qs.sum)
  | minimizeFinal {e : Expr} {q : Rat} : Accrues P p ss (.minimizeFinal e) q q
  | maximizeFinal {e : Expr} {q : Rat} : Accrues P p ss (.maximizeFinal e) q q

namespace Accrues

variable {P : Problem} {s : State} {p : Plan} {i : ActionInstance} {ss : List State}
  {m : QualityMetric} {q q' q'' : Rat}

theorem refl (P : Problem) (m : QualityMetric) (q : Rat) : P.Accrues [] [] m q q := by
  cases m with
  | planLength => exact .planLength
  | actionCosts costs default =>
    have hnone : P.StepCosts (.actionCosts costs default) [] [] [] := .nil
    have hsum : P.Accrues [] [] (.actionCosts costs default) q (q + List.sum []) :=
      .actionCosts hnone
    rwa [List.sum_nil, add_zero] at hsum
  | minimizeFinal e => exact .minimizeFinal
  | maximizeFinal e => exact .maximizeFinal

/-- The first step adds what it costs in the state before it. -/
theorem cons {a : Action} (ha : P.action i.action = .ok a)
    (hcost : PlanValidator.addCost P s (.ofArgs a.parameters i.args) a m q = .ok q')
    (hrest : P.Accrues p ss m q' q'') : P.Accrues (i :: p) (s :: ss) m q q'' := by
  cases hrest with
  | planLength =>
    cases hcost
    exact .planLength
  | @actionCosts costs default _ qs hqs =>
    rw [PlanValidator.addCost] at hcost
    split at hcost
    · next cost hsome =>
      obtain ⟨v, hv, hcost⟩ := bind_eq_ok.mp (mapError_eq_ok.mp hcost)
      obtain ⟨c, hc, ⟨⟩⟩ := bind_eq_ok.mp hcost
      have hstep : P.StepCost (.actionCosts costs default) s i c := by
        cases v <;> cases hc
        exact ⟨a, cost, ha, hsome, hv⟩
      have hsum : P.Accrues (i :: p) (s :: ss) (.actionCosts costs default) q
          (q + (c :: qs).sum) := .actionCosts (.cons hstep hqs)
      rwa [List.sum_cons, ← add_assoc] at hsum
    · cases hcost
  | minimizeFinal =>
    cases hcost
    exact .minimizeFinal
  | maximizeFinal =>
    cases hcost
    exact .maximizeFinal

/-- At the end, the sum that was started at 0 is what the metric asks for. -/
theorem measured {v : Value} (h : P.Accrues p ss m 0 q)
    (hv : PlanValidator.metricValue P s p.length m q = .ok v) : P.Measured p ss s m v := by
  cases h with
  | planLength =>
    cases hv
    exact .planLength
  | actionCosts hqs =>
    cases hv
    rw [zero_add]
    exact .actionCosts hqs
  | minimizeFinal => exact .minimizeFinal hv
  | maximizeFinal => exact .maximizeFinal hv

end Accrues

end Problem

/-! ## Runs -/

namespace PlanValidator

variable {v w : PlanValidator} {P : Problem} {p : Plan} {k : Nat} {r r' : Run}
  {out : ValidationResult}

/-- Along a finished run each metric has a sum of its own. -/
theorem accrues_of_run (h : v.run P k r p = .ok (.finished r'))
    (hlength : r.costs.length = P.metrics.length) :
    ∃ ss, P.Passes r.state p ss r'.state ∧
      List.Forall₂ (fun x q => P.Accrues p ss x.1 x.2 q) (P.metrics.zip r.costs) r'.costs := by
  induction p generalizing k r with
  | nil =>
    cases h
    exact ⟨[], .nil, forall₂_zip_self hlength fun m q => .refl P m q⟩
  | cons i p ih =>
    obtain ⟨a, t, costs, ha, hargs, hpre, hcosts, happly, hrest⟩ := run_cons_finished h
    have hcosts := mapM_eq_ok.mp hcosts
    have hlength' : costs.length = P.metrics.length := by
      rw [← hcosts.length_eq, List.length_zip, hlength, Nat.min_self]
    obtain ⟨ss, hpasses, hsums⟩ := ih hrest hlength'
    have hmade := Problem.successor_eq_some_iff.mpr ⟨a, ha, hargs, hpre, happly⟩
    exact ⟨r.state :: ss, .cons hmade hpasses,
      forall₂_zip_trans hcosts hsums fun m q q' q'' => .cons ha⟩

/-- The costs that a run carries along have no influence on the states it goes through. -/
theorem run_clearMetrics (hw : w.cancelled = v.cancelled)
    (h : v.run P k r p = .ok (.finished r')) :
    w.run P.clearMetrics k ⟨r.state, []⟩ p = .ok (.finished ⟨r'.state, []⟩) := by
  cases hv : v.cancelled with
  | false => exact run_of_leads (hw.trans hv) rfl (Problem.leads_clearMetrics.mpr (leads_of_run h))
  | true =>
    -- a cancelled run makes no step
    cases p with
    | nil =>
      cases h
      rfl
    | cons i p =>
      rw [run, if_pos hv] at h
      cases h

/-! ## Validation -/

theorem metricValues_eq_ok {length : Nat} {values : List (QualityMetric × Value)}
    (h : metricValues P r length = .ok values) :
    List.Forall₂ (fun x y => y.1 = x.1 ∧ metricValue P r.state length x.1 x.2 = .ok y.2)
      (P.metrics.zip r.costs) values := by
  refine (mapM_eq_ok.mp h).imp fun x y hy => ?_
  obtain ⟨value, hvalue, ⟨⟩⟩ := bind_eq_ok.mp hy
  exact ⟨rfl, hvalue⟩

theorem measured_of_valid (h : v.validate P p = .ok out) (hvalid : out.verdict = .valid) :
    ∃ ss s, P.Passes P.initialState p ss s ∧
      List.Forall₂ (fun m x => x.1 = m ∧ P.Measured p ss s m x.2) P.metrics out.metrics := by
  obtain ⟨r, hrun, _, hvalues⟩ := finished_of_valid h hvalid
  obtain ⟨ss, hpasses, hsums⟩ := accrues_of_run hrun (List.length_map _)
  refine ⟨ss, r.state, hpasses, ?_⟩
  have hall : List.Forall₂ (fun (x : QualityMetric × Rat) (y : QualityMetric × Value) =>
      x.2 = 0 → y.1 = x.1 ∧ P.Measured p ss r.state x.1 y.2)
      (P.metrics.zip (P.metrics.map fun _ => 0)) out.metrics := by
    refine forall₂_zip_trans
      (S := fun m q (y : QualityMetric × Value) =>
        y.1 = m ∧ metricValue P r.state p.length m q = .ok y.2)
      (T := fun m q y => q = 0 → y.1 = m ∧ P.Measured p ss r.state m y.2)
      hsums (metricValues_eq_ok hvalues) ?_
    rintro m _ q y hsum ⟨hm, hvalue⟩ rfl
    exact ⟨hm, hsum.measured hvalue⟩
  -- all sums were started at 0
  rw [← List.map_prod_left_eq_zip, List.forall₂_map_left_iff] at hall
  exact hall.imp fun m y hy => hy rfl

theorem validate_clearMetrics (hw : w.cancelled = v.cancelled) (h : v.validate P p = .ok out)
    (hvalid : out.verdict = .valid) :
    w.validate P.clearMetrics p = .ok ⟨.valid, w.name, none, p.length, []⟩ := by
  obtain ⟨r, hrun, hgoals, _⟩ := finished_of_valid h hvalid
  have hjudge : w.judge P.clearMetrics ⟨r.state, []⟩ p.length =
      .ok ⟨.valid, w.name, none, p.length, []⟩ := (judge_eq_ok rfl).mpr (.inl ⟨hgoals, rfl⟩)
  exact (validate_eq_ok rfl).mpr (.inr ⟨_, run_clearMetrics hw hrun, hjudge⟩)

/-- A plan that is found valid has one value for each metric, in their order, and these are what the
metrics measure along the states through which the plan goes. Without the metrics the plan is found
valid too, by any validator. -/
theorem metric_values_of_valid (h : v.validate P p = .ok out) (hvalid : out.verdict = .valid) :
    (∃ ss s, P.Passes P.initialState p ss s ∧
      List.Forall₂ (fun m x => x.1 = m ∧ P.Measured p ss s m x.2) P.metrics out.metrics) ∧
    ∀ w : PlanValidator, w.cancelled = v.cancelled →
      w.validate P.clearMetrics p = .ok ⟨.valid, w.name, none, p.length, []⟩ :=
  ⟨measured_of_valid h hvalid, fun _ hw => validate_clearMetrics hw h hvalid⟩

end PlanValidator

/-! ## Example -/

namespace Examples

def pouredThrice : ValidationResult :=
  ⟨.valid, "sequential-plan-validator-metrics", none, 3,
    jugs.metrics.zip [.number 3, .number 15, .number 5]⟩

end Examples

open Examples in
/-- After each step the jug that was poured is empty, so the costs are those before the steps. -/
theorem PlanValidator.metric_values_of_valid_jugs :
    PlanValidator.validate ⟨⟨true⟩, false⟩ jugs
        [pouring "j" "k", pouring "k" "j", pouring "j" "k"] = .ok pouredThrice ∧
      (∃ ss s, jugs.Passes jugs.initialState
          [pouring "j" "k", pouring "k" "j", pouring "j" "k"] ss s ∧
        List.Forall₂ (fun m x => x.1 = m ∧ jugs.Measured
            [pouring "j" "k", pouring "k" "j", pouring "j" "k"] ss s m x.2)
          jugs.metrics pouredThrice.metrics) ∧
      PlanValidator.validate {} jugs.clearMetrics
          [pouring "j" "k", pouring "k" "j", pouring "j" "k"] =
        .ok ⟨.valid, "sequential-plan-validator", none, 3, []⟩ := by
  have hvalid : PlanValidator.validate ⟨⟨true⟩, false⟩ jugs
      [pouring "j" "k", pouring "k" "j", pouring "j" "k"] = .ok pouredThrice := by decide +kernel
  obtain ⟨hvalues, hclear⟩ := metric_values_of_valid hvalid rfl
  exact ⟨hvalid, hvalues, hclear {} rfl⟩

end LiftedPlanning
