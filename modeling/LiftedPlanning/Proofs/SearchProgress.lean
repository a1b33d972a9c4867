import LiftedPlanning.Proofs.PlanRuns
import LiftedPlanning.Proofs.StepOrder
import Mathlib.Data.List.Induction

/-!
# Progress of a search

A breadth-first search works off an agenda of attempts, each a candidate to be tried on a node. The
nodes it has made and the attempts still before it are related by `Progress`, which every attempt
preserves, whether the candidate is not applicable or leads to a state that was seen before
(`Progress.settle`), or to a new one (`Progress.push`).

The order of plans (`Plan.rank`) drives the argument. Nodes and attempts come in ascending rank,
so a state is first reached by the plan that ranks lowest among all plans that lead there, and
every plan has been overtaken by a node or still has an attempt before it (`Progress.covers`).
Hence the first plan that reaches the goals ranks lowest (`Progress.best`), and an empty agenda
means that all reachable states have been made (`Progress.reached_iff`).
-/

namespace LiftedPlanning

/-! ## Attempts -/

namespace SearchNode

def plan (n : SearchNode) : Plan := n.steps.reverse

def root (P : Problem) : SearchNode := ⟨P.initialState, []⟩

end SearchNode

structure Attempt where
  node : SearchNode
  candidate : Candidate

namespace Attempt

def plan (x : Attempt) : Plan := x.node.plan ++ [x.candidate.step]

def made (x : Attempt) (t : State) : SearchNode := ⟨t, x.candidate.step :: x.node.steps⟩

theorem plan_made (x : Attempt) (t : State) : (x.made t).plan = x.plan := List.reverse_cons

/-- What an attempt leads to has a node already, whose plan ranks no higher. -/
def Settled (P : Problem) (cs : List Candidate) (nodes : List SearchNode) (x : Attempt) : Prop :=
  ∀ t, P.successor x.node.state x.candidate.step = .ok (some t) →
    ∃ m ∈ nodes, m.state = t ∧ Plan.rank cs m.plan ≤ Plan.rank cs x.plan

theorem Settled.mono {P : Problem} {cs : List Candidate} {nodes nodes' : List SearchNode}
    {x : Attempt} (h : x.Settled P cs nodes) (hsub : nodes ⊆ nodes') : x.Settled P cs nodes' := by
  intro t ht
  obtain ⟨m, hm, hrest⟩ := h t ht
  exact ⟨m, hsub hm, hrest⟩

end Attempt

/-- All candidates are to be tried on some nodes, node by node. -/
def attempts (cs : List Candidate) (nodes : List SearchNode) : List Attempt :=
  nodes.flatMap fun n => cs.map (⟨n, ·⟩)

section Attempts

variable {cs : List Candidate} {nodes nodes' : List SearchNode} {n : SearchNode} {x : Attempt}

theorem attempts_cons : attempts cs (n :: nodes) = cs.map (⟨n, ·⟩) ++ attempts cs nodes :=
  List.flatMap_cons

theorem attempts_append : attempts cs (nodes ++ nodes') = attempts cs nodes ++ attempts cs nodes' :=
  List.flatMap_append

theorem attempts_singleton : attempts cs [n] = cs.map (⟨n, ·⟩) := List.flatMap_singleton _ _

theorem mem_attempts_singleton : x ∈ attempts cs [n] ↔ x.node = n ∧ x.candidate ∈ cs := by
  rw [attempts_singleton, List.mem_map]
  constructor
  · rintro ⟨c, hc, rfl⟩
    exact ⟨rfl, hc⟩
  · rintro ⟨rfl, hc⟩
    exact ⟨x.candidate, hc, rfl⟩

/-- The attempts on a node come in the order of the candidates. -/
theorem attempts_singleton_ordered (h : (cs.map Candidate.step).Nodup) :
    (attempts cs [n]).Pairwise fun x y => Plan.rank cs x.plan < Plan.rank cs y.plan := by
  rw [attempts_singleton]
  refine List.pairwise_map.mpr ((List.pairwise_map.mp (pairwise_idxOf h)).imp fun hlt => ?_)
  exact Plan.rank_concat_lt_of_position n.plan hlt

end Attempts

/-! ## The best plan -/

/-- A plan that solves a problem, and ranks no higher than any other that does. -/
def Problem.Best (P : Problem) (cs : List Candidate) (p : Plan) : Prop :=
  P.Solves p ∧ ∀ q, P.Solves q → Plan.rank cs p ≤ Plan.rank cs q

/-! ## Progress -/

/-- The nodes that a search has made, none of them a goal, and the attempts still before it. -/
structure Progress (P : Problem) (cs : List Candidate) (nodes : List SearchNode)
    (agenda : List Attempt) : Prop where
  root : SearchNode.root P ∈ nodes
  leads : ∀ n ∈ nodes, P.Leads P.initialState n.plan n.state
  unsolved : ∀ n ∈ nodes, ¬ P.GoalsHold n.state
  distinct : (nodes.map SearchNode.state).Nodup
  known : ∀ x ∈ agenda, x.node ∈ nodes
  later : ∀ n ∈ nodes, ∀ x ∈ agenda, Plan.rank cs n.plan < Plan.rank cs x.plan
  ordered : agenda.Pairwise fun x y => Plan.rank cs x.plan < Plan.rank cs y.plan
  tried : ∀ n ∈ nodes, ∀ c ∈ cs, ⟨n, c⟩ ∈ agenda ∨ Attempt.Settled P cs nodes ⟨n, c⟩

namespace Progress

variable {P : Problem} {cs : List Candidate} {nodes : List SearchNode} {agenda : List Attempt}
  {x : Attempt} {s t : State} {q : Plan}

theorem start (hcs : (cs.map Candidate.step).Nodup)
    (h : ¬ P.GoalsHold P.initialState) :
    Progress P cs [SearchNode.root P] (attempts cs [SearchNode.root P]) where
  root := List.mem_singleton_self _
  leads := List.forall_mem_singleton.mpr .nil
  unsolved := List.forall_mem_singleton.mpr h
  distinct := List.nodup_singleton _
  known := fun _ hx => List.mem_singleton.mpr (mem_attempts_singleton.mp hx).1
  later := by
    refine List.forall_mem_singleton.mpr fun x hx => ?_
    rw [← (mem_attempts_singleton.mp hx).1]
    exact Plan.rank_lt_concat _ _
  ordered := attempts_singleton_ordered hcs
  tried := List.forall_mem_singleton.mpr fun _ hc => .inl (mem_attempts_singleton.mpr ⟨rfl, hc⟩)

/-- An attempt whose state has a node, or that leads nowhere, is done with. -/
theorem settle (h : Progress P cs nodes (x :: agenda)) (hx : x.Settled P cs nodes) :
    Progress P cs nodes agenda where
  root := h.root
  leads := h.leads
  unsolved := h.unsolved
  distinct := h.distinct
  known := (List.forall_mem_cons.mp h.known).2
  later := fun n hn => (List.forall_mem_cons.mp (h.later n hn)).2
  ordered := h.ordered.of_cons
  tried := by
    intro n hn c hc
    rcases h.tried n hn c hc with hmem | hsettled
    · rcases List.mem_cons.mp hmem with rfl | hmem
      · exact .inr hx
      · exact .inl hmem
    · exact .inr hsettled

/-- A state that has a node was reached by a plan that ranks lower than the attempt. -/
theorem settled_of_seen (h : Progress P cs nodes (x :: agenda))
    (ht : P.successor x.node.state x.candidate.step = .ok (some t))
    (hseen : t ∈ nodes.map SearchNode.state) : x.Settled P cs nodes := by
  obtain ⟨m, hm, rfl⟩ := List.mem_map.mp hseen
  intro u hu
  cases ht.symm.trans hu
  exact ⟨m, hm, rfl, (h.later m hm x List.mem_cons_self).le⟩

theorem leads_made (h : Progress P cs nodes (x :: agenda))
    (ht : P.successor x.node.state x.candidate.step = .ok (some t)) :
    P.Leads P.initialState x.plan t :=
  Problem.leads_concat_iff.mpr ⟨_, h.leads _ (h.known x List.mem_cons_self), ht⟩

/-- A new state, not a goal, gets a node, on which all candidates are to be tried last. -/
theorem push (hcs : (cs.map Candidate.step).Nodup)
    (h : Progress P cs nodes (x :: agenda))
    (ht : P.successor x.node.state x.candidate.step = .ok (some t))
    (hnew : t ∉ nodes.map SearchNode.state) (hgoal : ¬ P.GoalsHold t) :
    Progress P cs (nodes ++ [x.made t]) (agenda ++ attempts cs [x.made t]) := by
  have hmem : ∀ n, n ∈ nodes ++ [x.made t] ↔ n ∈ nodes ∨ n = x.made t := by
    intro n
    rw [List.mem_append, List.mem_singleton]
  have hmade : x.made t ∈ nodes ++ [x.made t] := (hmem _).mpr (.inr rfl)
  have hsub : nodes ⊆ nodes ++ [x.made t] := List.subset_append_left _ _
  obtain ⟨hbefore, hordered⟩ := List.pairwise_cons.mp h.ordered
  -- an attempt on the new node ranks higher than that node
  have hlast : ∀ y ∈ attempts cs [x.made t], Plan.rank cs x.plan < Plan.rank cs y.plan := by
    intro y hy
    rw [← x.plan_made t, ← (mem_attempts_singleton.mp hy).1]
    exact Plan.rank_lt_concat _ _
  constructor
  case root => exact hsub h.root
  case leads =>
    intro n hn
    rcases (hmem n).mp hn with hn | rfl
    · exact h.leads n hn
    · rw [x.plan_made t]
      exact h.leads_made ht
  case unsolved =>
    intro n hn
    rcases (hmem n).mp hn with hn | rfl
    · exact h.unsolved n hn
    · exact hgoal
  case distinct =>
    rw [List.map_append, List.map_singleton]
    refine List.nodup_append.mpr ⟨h.distinct, List.nodup_singleton _, ?_⟩
    rintro s hs s' hs' rfl
    obtain rfl : s = t := List.mem_singleton.mp hs'
    exact hnew hs
  case known =>
    intro y hy
    rcases List.mem_append.mp hy with hy | hy
    · exact hsub (h.known y (List.mem_cons_of_mem _ hy))
    · rw [(mem_attempts_singleton.mp hy).1]
      exact hmade
  case later =>
    intro n hn y hy
    have hle : Plan.rank cs n.plan ≤ Plan.rank cs x.plan := by
      rcases (hmem n).mp hn with hn | rfl
      · exact (h.later n hn x List.mem_cons_self).le
      · rw [x.plan_made t]
    rcases List.mem_append.mp hy with hy | hy
    · exact hle.trans_lt (hbefore y hy)
    · exact hle.trans_lt (hlast y hy)
  case ordered =>
    refine List.pairwise_append.mpr ⟨hordered, attempts_singleton_ordered hcs, ?_⟩
    intro y hy z hz
    -- the node of `y` ranks lower than the new node, so its continuations do as well
    have hnode : Plan.rank cs y.node.plan < Plan.rank cs (x.made t).plan := by
      rw [x.plan_made t]
      exact h.later _ (h.known y (List.mem_cons_of_mem _ hy)) x List.mem_cons_self
    rw [← (mem_attempts_singleton.mp hz).1] at hnode
    exact Plan.rank_concat_lt hnode _ _
  case tried =>
    intro n hn c hc
    rcases (hmem n).mp hn with hn | rfl
    · rcases h.tried n hn c hc with hattempt | hsettled
      · rcases List.mem_cons.mp hattempt with rfl | hattempt
        · refine .inr fun u hu => ⟨_, hmade, ?_, ?_⟩
          · cases ht.symm.trans hu
            rfl
          · rw [Attempt.plan_made]
        · exact .inl (List.mem_append_left _ hattempt)
      · exact .inr (hsettled.mono hsub)
    · exact .inl (List.mem_append_right _ (mem_attempts_singleton.mpr ⟨rfl, hc⟩))

/-! ## What progress says of all plans -/

/-- Every plan that leads somewhere has been overtaken by a node, or has an attempt before it. -/
theorem covers (hall : ∀ s i t, P.successor s i = .ok (some t) → ∃ c ∈ cs, c.step = i)
    (h : Progress P cs nodes agenda) (hq : P.Leads P.initialState q s) :
    (∃ m ∈ nodes, m.state = s ∧ Plan.rank cs m.plan ≤ Plan.rank cs q) ∨
      ∃ x ∈ agenda, Plan.rank cs x.plan ≤ Plan.rank cs q := by
  induction q using List.reverseRecOn generalizing s with
  | nil =>
    cases hq
    exact .inl ⟨_, h.root, rfl, le_rfl⟩
  | append_singleton q i ih =>
    obtain ⟨t, ht, hi⟩ := Problem.leads_concat_iff.mp hq
    obtain ⟨c, hc, rfl⟩ := hall t i s hi
    rcases ih ht with ⟨m, hm, rfl, hrank⟩ | ⟨x, hx, hrank⟩
    · -- the plan of the node, with the same step, ranks no higher
      have hconcat := Plan.rank_concat_le hrank c.step
      rcases h.tried m hm c hc with hattempt | hsettled
      · exact .inr ⟨_, hattempt, hconcat⟩
      · obtain ⟨m', hm', hstate, hrank'⟩ := hsettled s hi
        exact .inl ⟨m', hm', hstate, hrank'.trans hconcat⟩
    · exact .inr ⟨x, hx, hrank.trans (Plan.rank_lt_concat q _).le⟩

/-- If the next attempt reaches the goals, its plan is the best. -/
theorem best (hall : ∀ s i t, P.successor s i = .ok (some t) → ∃ c ∈ cs, c.step = i)
    (h : Progress P cs nodes (x :: agenda))
    (ht : P.successor x.node.state x.candidate.step = .ok (some t)) (hgoal : P.GoalsHold t) :
    P.Best cs x.plan := by
  refine ⟨⟨t, h.leads_made ht, hgoal⟩, ?_⟩
  rintro q ⟨s, hq, hs⟩
  rcases h.covers hall hq with ⟨m, hm, rfl, _⟩ | ⟨y, hy, hrank⟩
  · exact absurd hs (h.unsolved m hm)
  · rcases List.mem_cons.mp hy with rfl | hy
    · exact hrank
    · exact ((List.pairwise_cons.mp h.ordered).1 y hy).le.trans hrank

/-- With no attempt left, the states of the nodes are the states to which plans lead. -/
theorem reached_iff (hall : ∀ s i t, P.successor s i = .ok (some t) → ∃ c ∈ cs, c.step = i)
    (h : Progress P cs nodes []) :
    s ∈ nodes.map SearchNode.state ↔ ∃ q, P.Leads P.initialState q s := by
  constructor
  · intro hs
    obtain ⟨n, hn, rfl⟩ := List.mem_map.mp hs
    exact ⟨_, h.leads n hn⟩
  · rintro ⟨q, hq⟩
    rcases h.covers hall hq with ⟨m, hm, rfl, _⟩ | ⟨x, hx, _⟩
    · exact List.mem_map_of_mem hm
    · cases hx

/-- With no attempt left, no plan solves the problem. -/
theorem not_solves (hall : ∀ s i t, P.successor s i = .ok (some t) → ∃ c ∈ cs, c.step = i)
    (h : Progress P cs nodes []) : ¬ P.Solves q := by
  rintro ⟨s, hq, hs⟩
  obtain ⟨n, hn, rfl⟩ := List.mem_map.mp ((h.reached_iff hall).mpr ⟨q, hq⟩)
  exact h.unsolved n hn hs

end Progress

end LiftedPlanning
