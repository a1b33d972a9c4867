import LiftedPlanning.Proofs.GroundProblem

/-!
# Breadth-first search on a grounding

The search on a grounding runs in lock step with the search on the lifted problem: both have the
same states in their queues, in the same order, and have seen the same states. The candidates of
the grounding are those of the lifted problem, in the same order, without the pruned ones, which
lead nowhere. So both searches end alike, and with corresponding plans
(`Grounder.ground_search_agrees`).
-/

namespace LiftedPlanning

/-! ## Queues -/

/-- Queues that match element by element are both empty, or have matching oldest elements. -/
theorem Queue.pop?_rel {α β : Type} {M : α → β → Prop} {q : Queue α} {q' : Queue β}
    (h : List.Forall₂ M q.toList q'.toList) :
    Option.Rel (fun x x' => M x.1 x'.1 ∧ List.Forall₂ M x.2.toList x'.2.toList) q.pop? q'.pop? := by
  cases hq : q.pop? with
  | none =>
    rw [pop?_eq_none_iff.mp hq, List.forall₂_nil_left_iff] at h
    rw [pop?_eq_none_iff.mpr h]
    exact .none
  | some x =>
    obtain ⟨a, r⟩ := x
    rw [toList_of_pop? hq] at h
    cases hq' : q'.pop? with
    | none =>
      rw [pop?_eq_none_iff.mp hq'] at h
      cases h
    | some x' =>
      obtain ⟨b, r'⟩ := x'
      rw [toList_of_pop? hq', List.forall₂_cons] at h
      exact .some h

/-! ## Matching searches -/

/-- The plan found on the grounding is read back as the one found on the lifted problem, and the
searches had the same course. -/
structure PlanResult.Matches (R : CompilerResult) (a b : PlanResult) : Prop where
  status : b.status = a.status
  expansions : b.expansions = a.expansions
  generated : b.generated = a.generated
  plan : Option.Rel (fun l p => R.mapBackPlan p = .ok l) a.plan b.plan

/-- Nodes with the same reachable state, to which corresponding steps lead. -/
structure SearchNode.Matches (P : Problem) (made : List Grounded) (n n' : SearchNode) : Prop where
  state : n'.state = n.state
  reached : P.Reaches P.initialState n.state
  steps : ∃ gs : List Grounded, (∀ g ∈ gs, g ∈ made) ∧ n.steps = gs.map Grounded.lifted ∧
    n'.steps = gs.map Grounded.step

structure Frontier.Matches (P : Problem) (made : List Grounded) (f f' : Frontier) : Prop where
  queue : List.Forall₂ (SearchNode.Matches P made) f.queue.toList f'.queue.toList
  seen : f'.seen = f.seen
  generated : f'.generated = f.generated

inductive Expansion.Matches (P : Problem) (made : List Grounded) :
    Expansion → Expansion → Prop where
  | reached {n n' : SearchNode} {generated : Nat} : n.Matches P made n' →
      Matches P made (.reached n generated) (.reached n' generated)
  | searching {f f' : Frontier} : f.Matches P made f' →
      Matches P made (.searching f) (.searching f')

namespace Grounder

namespace Makes

open BreadthFirstPlanner

variable {G : Grounder} {P : Problem} {R : CompilerResult} {cs ds : List Candidate}
  {made gs : List Grounded} {n n' : SearchNode} {f f' : Frontier}

/-- The candidates of the grounding are its ground actions. -/
theorem candidates_ground (h : G.Makes P R cs made) :
    BreadthFirstPlanner.candidates R.problem = .ok (made.map Grounded.groundCandidate) := by
  have hof : ∀ g ∈ made, candidatesOf R.problem g.action = .ok [g.groundCandidate] := by
    intro g hg
    rw [candidatesOf, (h.kept.stands g hg).parameters]
    rfl
  have hsingles : made.mapM (candidatesOf R.problem ∘ Grounded.action) =
      .ok (made.map fun g => [g.groundCandidate]) := by
    refine mapM_eq_ok.mpr (List.forall₂_map_right_iff.mpr ?_)
    exact List.forall₂_same.mpr hof
  rw [BreadthFirstPlanner.candidates, h.actions, List.mapM_map, hsingles]
  show Except.ok (List.flatten _) = _
  rw [← List.flatMap_def, ← List.map_eq_flatMap]

/-! ## Expanding a node -/

theorem visit_follows (h : G.Makes P R cs made) (hf : f.Matches P made f')
    (hn : n.Matches P made n') :
    Follows False (Expansion.Matches P made) (visit P f n) (visit R.problem f' n') := by
  rw [visit, visit, hn.state, hf.seen, hf.generated]
  split
  · exact Expansion.Matches.searching ⟨hf.queue, rfl, rfl⟩
  · rw [Problem.firstUnreachedGoal, Problem.firstUnreachedGoal, h.vocabulary]
    have hgoals := (h.goals.firstFalse_follows (factsHold_of_reaches hn.reached)).inexact
    refine hgoals.bind fun c c' hcc' => ?_
    cases hcc' with
    | none => exact Expansion.Matches.reached hn
    | some _ =>
      refine Expansion.Matches.searching ⟨?_, rfl, rfl⟩
      rw [Queue.toList_push, Queue.toList_push]
      exact List.rel_append hf.queue (.cons hn .nil)

/-- A pruned candidate is passed over. -/
theorem expand_pruned (hn : n.Matches P made n') {c : Candidate} {e : Expansion}
    (hc : groundAction P.toVocabulary (G.factsOf P) c.binding c.action = .ok none)
    (h : expand P n (c :: ds) f = .ok e) : expand P n ds f = .ok e := by
  rw [expand] at h
  obtain ⟨t, ht, h⟩ := bind_eq_ok.mp h
  cases t with
  | none => exact h
  | some t =>
    have hpre := (Problem.step_eq_some ht).1
    exact absurd hpre (groundAction_none_inapplicable hc (factsHold_of_reaches hn.reached))

theorem expand_follows (h : G.Makes P R cs made) (hP : P.NamesDistinct)
    (hkept : Kept P.toVocabulary (G.factsOf P) ds gs) (hgs : ∀ g ∈ gs, g ∈ made)
    (hn : n.Matches P made n') (hf : f.Matches P made f') :
    Follows False (Expansion.Matches P made) (expand P n ds f)
      (expand R.problem n' (gs.map Grounded.groundCandidate) f') := by
  induction hkept generalizing f f' with
  | nil => exact Expansion.Matches.searching hf
  | prune hc _ ih =>
    -- the lifted search tries one more candidate, which leads nowhere
    refine Follows.inexact_iff.mpr fun e he => ?_
    exact (ih hgs hf).of_ok (expand_pruned hn hc he)
  | @keep g ds gs hstands _ ih =>
    obtain ⟨hg, hgs⟩ := List.forall_mem_cons.mp hgs
    have hbinding : g.groundCandidate.binding = .empty := hstands.binding
    rw [List.map_cons, expand, expand, hn.state, hbinding, h.vocabulary]
    have hstep := (hstands.step_follows (factsHold_of_reaches (G := G) hn.reached)).inexact
    refine hstep.answers.bind ?_
    rintro t _ ⟨rfl, ht⟩
    cases t with
    | none => exact ih hgs hf
    | some t =>
      have hreached := hn.reached.apply (h.origin_mem hP hg) (Problem.step_eq_some ht).2
      -- the node that the candidate leads to, with one more step on both sides
      obtain ⟨taken, htaken, hsteps, hsteps'⟩ := hn.steps
      have hnode : SearchNode.Matches P made ⟨t, g.candidate.step :: n.steps⟩
          ⟨t, g.groundCandidate.step :: n'.steps⟩ := by
        refine ⟨rfl, hreached, g :: taken, List.forall_mem_cons.mpr ⟨hg, htaken⟩, ?_, ?_⟩
        · rw [hsteps]
          rfl
        · rw [hsteps']
          rfl
      refine (h.visit_follows hf hnode).bind fun e e' hee' => ?_
      cases hee' with
      | reached hn => exact Expansion.Matches.reached hn
      | searching hf => exact ih hgs hf

/-! ## Searching -/

theorem explore_follows (h : G.Makes P R cs made) (hP : P.NamesDistinct) (expansions : Nat)
    (hf : f.Matches P made f') (remaining : Nat) :
    Follows False (PlanResult.Matches R) (explore P cs expansions f remaining)
      (explore R.problem (made.map Grounded.groundCandidate) expansions f' remaining) := by
  induction remaining generalizing expansions f f' with
  | zero =>
    rw [explore, explore, hf.generated]
    have hpop := Queue.pop?_rel hf.queue
    revert hpop
    generalize f.queue.pop? = x, f'.queue.pop? = x'
    intro hpop
    cases hpop with
    | none => exact ⟨rfl, rfl, rfl, .none⟩
    | some _ => exact ⟨rfl, rfl, rfl, .none⟩
  | succ remaining ih =>
    rw [explore, explore, hf.generated]
    have hpop := Queue.pop?_rel hf.queue
    revert hpop
    generalize f.queue.pop? = x, f'.queue.pop? = x'
    intro hpop
    cases hpop with
    | none => exact ⟨rfl, rfl, rfl, .none⟩
    | @some x x' hnode =>
      obtain ⟨node, queue⟩ := x
      obtain ⟨node', queue'⟩ := x'
      have hn : SearchNode.Matches P made node node' := hnode.1
      have hrest : Frontier.Matches P made ⟨queue, f.seen, f.generated⟩
          ⟨queue', f'.seen, f.generated⟩ := ⟨hnode.2, hf.seen, rfl⟩
      refine (h.expand_follows hP h.kept (fun _ hg => hg) hn hrest).bind fun e e' hee' => ?_
      cases hee' with
      | searching hf => exact ih (expansions + 1) hf
      | reached hn =>
        obtain ⟨gs, hgs, hsteps, hsteps'⟩ := hn.steps
        -- steps are kept last first, and turned round in the plan
        refine ⟨rfl, rfl, rfl, .some ?_⟩
        rw [hsteps, hsteps', ← List.map_reverse, ← List.map_reverse]
        exact h.mapBackPlan_steps fun g hg => hgs g (List.mem_reverse.mp hg)

theorem solve_follows (h : G.Makes P R cs made) (hP : P.NamesDistinct) (p : BreadthFirstPlanner) :
    Follows False (PlanResult.Matches R) (p.solve P) (p.solve R.problem) := by
  rw [solve, solve, h.candidates, h.candidates_ground, h.initialState, Problem.firstUnreachedGoal,
    Problem.firstUnreachedGoal, h.vocabulary]
  have hgoals := (h.goals.firstFalse_follows (factsHold_of_reaches .refl)).inexact
  refine hgoals.bind fun c c' hcc' => ?_
  cases hcc' with
  | none =>
    have hsolved : PlanResult.Matches R ⟨.solved, some [], BreadthFirstPlanner.engineName, 0, 0⟩
        ⟨.solved, some [], BreadthFirstPlanner.engineName, 0, 0⟩ := ⟨rfl, rfl, rfl, .some rfl⟩
    exact hsolved
  | some _ =>
    cases p.cancelled with
    | true =>
      have hcancelled : PlanResult.Matches R (unsolved .cancelled 0 0) (unsolved .cancelled 0 0) :=
        ⟨rfl, rfl, rfl, .none⟩
      exact hcancelled
    | false =>
      have hroot : SearchNode.Matches P made ⟨P.initialState, []⟩ ⟨P.initialState, []⟩ :=
        ⟨rfl, .refl, [], List.forall_mem_nil _, rfl, rfl⟩
      have hstart : Frontier.Matches P made (start P.initialState) (start P.initialState) :=
        ⟨.cons hroot .nil, rfl, rfl⟩
      exact h.explore_follows hP 0 hstart _

end Makes

open Examples

/-- Breadth-first search answers on a grounding, pruned or not, what it answers on the lifted
problem: the same status after as many expansions and generated states, and a plan that is read
back as the very plan found on the lifted problem. -/
theorem ground_search_agrees {G : Grounder} {P : Problem} {R : CompilerResult} (hP : P.Built)
    (h : G.ground P = .ok R) {p : BreadthFirstPlanner} {a : PlanResult} (ha : p.solve P = .ok a) :
    ∃ b, p.solve R.problem = .ok b ∧ PlanResult.Matches R a b := by
  obtain ⟨cs, made, hmakes⟩ := makes_of_ground h
  exact (hmakes.solve_follows hP.namesDistinct p).of_ok ha

theorem ground_search_agrees_roads :
    ∃ b, BreadthFirstPlanner.solve {} (groundRoads true).problem = .ok b ∧ b.status = .solved ∧
      b.expansions = 2 ∧ b.generated = 2 ∧
      ∃ p, b.plan = some p ∧ (groundRoads true).mapBackPlan p = .ok roadPlan := by
  have hsolve : BreadthFirstPlanner.solve {} roads =
      .ok ⟨.solved, some roadPlan, "breadth-first", 2, 2⟩ := by decide +kernel
  obtain ⟨b, hb, hmatches⟩ := ground_search_agrees roads_built (ground_roads true) hsolve
  refine ⟨b, hb, hmatches.status, hmatches.expansions, hmatches.generated, ?_⟩
  have hplan := hmatches.plan
  generalize b.plan = q at hplan
  cases hplan with
  | some hback => exact ⟨_, rfl, hback⟩

end Grounder

end LiftedPlanning
