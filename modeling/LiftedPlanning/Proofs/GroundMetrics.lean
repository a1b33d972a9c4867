import LiftedPlanning.Validation
import LiftedPlanning.Proofs.GroundProblem

/-!
# Metrics of a grounding

A ground metric lists costs by ground action and has no default. Looking up a ground action gives
the grounding of the cost of its lifted action (`Makes.actionCost_ground`), so the sums of costs
along a plan, and the values of final expressions, are those of the lifted problem.
-/

namespace LiftedPlanning.Grounder

/-! ## Costs listed by ground action -/

section Costs

variable {V : Vocabulary} {facts : Option StaticFacts} {made : List Grounded} {m : QualityMetric}
  {costs : List (Option (String × Expr))}

theorem groundCost_eq_some {g : Grounded} {name : String} {cost' : Expr}
    (h : groundCost V facts m g = .ok (some (name, cost'))) :
    name = g.name ∧ ∃ cost, m.actionCost g.origin.name = some cost ∧
      groundExpr V facts g.binding cost = .ok cost' := by
  unfold groundCost at h
  split at h
  · next cost hcost =>
    obtain ⟨d, hd, ⟨⟩⟩ := bind_eq_ok.mp h
    exact ⟨rfl, cost, hcost, hd⟩
  · cases h

/-- Costs are listed at most once for each ground action. -/
theorem groundCosts_keys_sublist (h : made.mapM (groundCost V facts m) = .ok costs) :
    ((costs.filterMap id).map Prod.fst).Sublist (made.map Grounded.name) := by
  have hall := mapM_eq_ok.mp h
  clear h
  induction hall with
  | nil => exact .slnil
  | @cons g cost made costs hcost _ ih =>
    rcases cost with _ | ⟨name, cost⟩
    · exact .cons _ ih
    · obtain ⟨rfl, _⟩ := groundCost_eq_some hcost
      exact .cons_cons _ ih

theorem groundCosts_get? (hnames : (made.map Grounded.name).Nodup)
    (h : made.mapM (groundCost V facts m) = .ok costs) {g : Grounded} (hg : g ∈ made) :
    Option.Rel (fun c c' => groundExpr V facts g.binding c = .ok c')
      (m.actionCost g.origin.name) ((SortedMap.ofList (costs.filterMap id)).get? g.name) := by
  have hkeys : ((costs.filterMap id).map Prod.fst).Nodup :=
    hnames.sublist (groundCosts_keys_sublist h)
  cases hcost : m.actionCost g.origin.name with
  | some cost =>
    obtain ⟨entry, hentry, hg⟩ := exists_mem_of_mapM h hg
    rw [groundCost, hcost] at hg
    obtain ⟨cost', hcost', ⟨⟩⟩ := bind_eq_ok.mp hg
    have hmem : (g.name, cost') ∈ costs.filterMap id := List.mem_filterMap.mpr ⟨_, hentry, rfl⟩
    rw [SortedMap.get?_ofList_of_mem hkeys hmem]
    exact .some hcost'
  | none =>
    have hnotMem : g.name ∉ (costs.filterMap id).map Prod.fst := by
      intro hmem
      obtain ⟨⟨name, cost'⟩, hentry, hname⟩ := List.mem_map.mp hmem
      obtain ⟨_, hcosts, rfl⟩ := List.mem_filterMap.mp hentry
      obtain ⟨g', hg', hcost'⟩ := exists_of_mem_mapM h hcosts
      obtain ⟨rfl, cost, hsome, _⟩ := groundCost_eq_some hcost'
      -- the names of ground actions are distinct, so the entry would be that of `g`
      obtain rfl := List.inj_on_of_nodup_map hnames hg' hg hname
      rw [hcost] at hsome
      cases hsome
    rw [SortedMap.get?_ofList_of_notMem hnotMem]
    exact .none

end Costs

namespace Makes

variable {G : Grounder} {P : Problem} {R : CompilerResult} {cs : List Candidate}
  {made : List Grounded} {g : Grounded} {m m' : QualityMetric} {s : State}

/-- The ground metrics are those of the lifted problem, one by one. -/
theorem metrics_ground (h : G.Makes P R cs made) :
    List.Forall₂ (fun m m' => groundMetric P.toVocabulary (G.factsOf P) made m = .ok m')
      P.metrics R.problem.metrics := mapM_eq_ok.mp h.metrics

theorem actionCost_ground (h : G.Makes P R cs made) (hg : g ∈ made)
    (hm : groundMetric P.toVocabulary (G.factsOf P) made m = .ok m') :
    Option.Rel (fun c c' => groundExpr P.toVocabulary (G.factsOf P) g.binding c = .ok c')
      (m.actionCost g.origin.name) (m'.actionCost g.name) := by
  cases m with
  | planLength =>
    cases hm
    exact .none
  | actionCosts costs default =>
    obtain ⟨costs', hcosts, ⟨⟩⟩ := bind_eq_ok.mp hm
    show Option.Rel _ _ ((SortedMap.get? _ g.name).or none)
    rw [Option.or_none]
    exact groundCosts_get? h.distinct hcosts hg
  | minimizeFinal e =>
    obtain ⟨_, _, ⟨⟩⟩ := bind_eq_ok.mp hm
    exact .none
  | maximizeFinal e =>
    obtain ⟨_, _, ⟨⟩⟩ := bind_eq_ok.mp hm
    exact .none

/-! ## Costs along a run -/

theorem addCost_follows (h : G.Makes P R cs made) (hg : g ∈ made) (hs : P.Reaches P.initialState s)
    (hm : groundMetric P.toVocabulary (G.factsOf P) made m = .ok m') (sum : Rat) :
    Follows (G.factsOf P = none) (· = ·) (PlanValidator.addCost P s g.binding g.origin m sum)
      (PlanValidator.addCost R.problem s .empty g.action m' sum) := by
  have hcost := h.actionCost_ground hg hm
  cases m with
  | planLength =>
    cases hm
    exact .refl _
  | actionCosts costs default =>
    obtain ⟨costs', _, ⟨⟩⟩ := bind_eq_ok.mp hm
    rw [PlanValidator.addCost, PlanValidator.addCost]
    change Option.Rel _ _ (QualityMetric.actionCost _ g.action.name) at hcost
    revert hcost
    generalize QualityMetric.actionCost (.actionCosts costs default) g.origin.name = c
    generalize QualityMetric.actionCost (.actionCosts _ none) g.action.name = c'
    intro hcost
    cases hcost with
    | none => exact fun _ => trivial
    | some hcost =>
      have hvalue := groundExpr_follows hcost (factsHold_of_reaches hs)
      rw [h.vocabulary]
      refine Follows.mapError_model ?_
      exact hvalue.bind_same fun v =>
        (Vocabulary.asNumber_follows _ _ v).bind_same fun q => .refl _
  | minimizeFinal e =>
    obtain ⟨_, _, ⟨⟩⟩ := bind_eq_ok.mp hm
    exact .refl _
  | maximizeFinal e =>
    obtain ⟨_, _, ⟨⟩⟩ := bind_eq_ok.mp hm
    exact .refl _

/-- The ground metrics paired with some numbers, against the lifted metrics paired with the same
numbers. -/
theorem metrics_zip (h : G.Makes P R cs made) (qs : List Rat) :
    List.Forall₂ (fun x x' => groundMetric P.toVocabulary (G.factsOf P) made x.1 = .ok x'.1 ∧
      x.2 = x'.2) (P.metrics.zip qs) (R.problem.metrics.zip qs) := by
  have hall := h.metrics_ground
  generalize P.metrics = ms, R.problem.metrics = ms' at hall
  induction hall generalizing qs with
  | nil => exact .nil
  | cons hm _ ih =>
    cases qs with
    | nil => exact .nil
    | cons q qs => exact .cons ⟨hm, rfl⟩ (ih qs)

theorem addCosts_follows (h : G.Makes P R cs made) (hg : g ∈ made)
    (hs : P.Reaches P.initialState s) (sums : List Rat) :
    Follows (G.factsOf P = none) (· = ·) (PlanValidator.addCosts P s g.binding g.origin sums)
      (PlanValidator.addCosts R.problem s .empty g.action sums) := by
  have hsums : Follows (G.factsOf P = none) (List.Forall₂ (· = ·))
      (PlanValidator.addCosts P s g.binding g.origin sums)
      (PlanValidator.addCosts R.problem s .empty g.action sums) := by
    refine Follows.mapM ((h.metrics_zip sums).imp ?_)
    rintro ⟨m, q⟩ ⟨m', _⟩ ⟨hm, rfl⟩
    exact h.addCost_follows hg hs hm q
  rwa [List.forall₂_eq_eq_eq] at hsums

/-! ## Values at the end of a run -/

theorem metricValue_follows (h : G.Makes P R cs made) (hs : P.Reaches P.initialState s)
    (hm : groundMetric P.toVocabulary (G.factsOf P) made m = .ok m') (length : Nat) (cost : Rat) :
    Follows (G.factsOf P = none) (· = ·) (PlanValidator.metricValue P s length m cost)
      (PlanValidator.metricValue R.problem s length m' cost) := by
  cases m with
  | planLength =>
    cases hm
    exact .refl _
  | actionCosts costs default =>
    obtain ⟨_, _, ⟨⟩⟩ := bind_eq_ok.mp hm
    exact .refl _
  | minimizeFinal e =>
    obtain ⟨e', he', ⟨⟩⟩ := bind_eq_ok.mp hm
    rw [PlanValidator.metricValue, PlanValidator.metricValue, h.vocabulary]
    exact groundExpr_follows he' (factsHold_of_reaches hs)
  | maximizeFinal e =>
    obtain ⟨e', he', ⟨⟩⟩ := bind_eq_ok.mp hm
    rw [PlanValidator.metricValue, PlanValidator.metricValue, h.vocabulary]
    exact groundExpr_follows he' (factsHold_of_reaches hs)

/-- The metrics have the same values in the same order. -/
theorem metricValues_follows (h : G.Makes P R cs made) {r : Run}
    (hs : P.Reaches P.initialState r.state) (length : Nat) :
    Follows (G.factsOf P = none) (fun vs vs' => vs'.map Prod.snd = vs.map Prod.snd)
      (PlanValidator.metricValues P r length) (PlanValidator.metricValues R.problem r length) := by
  have hvalues : Follows (G.factsOf P = none) (List.Forall₂ fun x x' => x.2 = x'.2)
      (PlanValidator.metricValues P r length) (PlanValidator.metricValues R.problem r length) := by
    refine Follows.mapM ((h.metrics_zip r.costs).imp ?_)
    rintro ⟨m, q⟩ ⟨m', _⟩ ⟨hm, rfl⟩
    refine (h.metricValue_follows hs hm length q).bind fun v v' hv => ?_
    exact hv
  refine hvalues.mono fun vs vs' hvs => ?_
  have hmap : List.Forall₂ (· = ·) (vs.map Prod.snd) (vs'.map Prod.snd) := by
    rwa [List.forall₂_map_left_iff, List.forall₂_map_right_iff]
  rw [List.forall₂_eq_eq_eq] at hmap
  exact hmap.symm

end Makes

end LiftedPlanning.Grounder
