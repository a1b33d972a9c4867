import LiftedPlanning.Proofs.SearchProgress

/-!
# What a search answers

The loops of the breadth-first search keep the invariant of `Progress`, with the nodes in the queue
as those whose attempts are still all to come (`Searching`). How the outer loop comes to its answer
is a relation with a case for each way (`BreadthFirstPlanner.Explores`). Two facts about the answers
follow by induction over it.

* A plan that is found is valid, no valid plan is shorter, and of the valid plans as short it comes
  first (`BreadthFirstPlanner.solved_plan_first`).
* If a problem is found to be unsolvable, then no plan is valid, and the search has expanded every
  reachable state, each of them once (`BreadthFirstPlanner.unsolvable_exhaustive`).
-/

namespace LiftedPlanning

/-! ## Candidates as steps -/

namespace Grounder

variable {P : Problem} {cs : List Candidate}

theorem successor_step (hP : P.NamesDistinct) (hcs : BreadthFirstPlanner.candidates P = .ok cs)
    {c : Candidate} (hc : c ∈ cs) (s : State) :
    P.successor s c.step = P.step s c.binding c.action := by
  obtain ⟨hmem, hargs⟩ := (mem_candidates hP hcs).mp hc
  have haction : P.action c.action.name = .ok c.action := by
    rw [Problem.action, find?_key_eq_some hP.actions hmem]
  show (P.action c.action.name >>= _) = _
  rw [haction]
  show (P.checkArguments c.action c.args >>= _) = _
  rw [hargs]
  rfl

/-- Every accepted step is a candidate. -/
theorem exists_candidate (hP : P.NamesDistinct) (hcs : BreadthFirstPlanner.candidates P = .ok cs)
    {i : ActionInstance} {a : Action} (ha : P.action i.action = .ok a)
    (hargs : P.checkArguments a i.args = .ok ()) : ∃ c ∈ cs, c.step = i := by
  obtain ⟨hmem, hname⟩ := Problem.action_eq_ok ha
  have hc : (⟨a, i.args⟩ : Candidate) ∈ cs := (mem_candidates hP hcs).mpr ⟨hmem, hargs⟩
  exact ⟨_, hc, by rw [Candidate.step, hname]⟩

theorem exists_candidate_of_successor (hP : P.NamesDistinct)
    (hcs : BreadthFirstPlanner.candidates P = .ok cs) (s : State) (i : ActionInstance) (t : State)
    (h : P.successor s i = .ok (some t)) : ∃ c ∈ cs, c.step = i := by
  obtain ⟨a, ha, hargs, _, _⟩ := Problem.successor_eq_some_iff.mp h
  exact exists_candidate hP hcs ha hargs

/-- The steps of a plan that solves a problem are candidates. -/
theorem mem_steps_of_solves (hP : P.NamesDistinct)
    (hcs : BreadthFirstPlanner.candidates P = .ok cs) {p : Plan} (h : P.Solves p) :
    ∀ i ∈ p, i ∈ cs.map Candidate.step := by
  obtain ⟨s, hs, _⟩ := h
  intro i hi
  obtain ⟨a, ha, hargs⟩ := hs.accepted i hi
  obtain ⟨c, hc, rfl⟩ := exists_candidate hP hcs ha hargs
  exact List.mem_map_of_mem hc

end Grounder

/-! ## The invariant of the loops -/

/-- A search under way: the nodes taken out of the queue are done with, but for some attempts on
the last of them. -/
structure Searching (P : Problem) (cs : List Candidate) (done : List SearchNode)
    (todo : List Attempt) (f : Frontier) : Prop where
  progress : Progress P cs (done ++ f.queue.toList) (todo ++ attempts cs f.queue.toList)
  seen : ∀ s, f.seen.contains s = true ↔ s ∈ (done ++ f.queue.toList).map SearchNode.state

/-- What comes of the attempts on a node: the best plan, or a search that has done with them. -/
inductive Expansion.Proper (P : Problem) (cs : List Candidate) (done : List SearchNode)
    (todo : List Attempt) : Expansion → Prop where
  | reached {n : SearchNode} {generated : Nat} : P.Best cs n.plan →
      Proper P cs done todo (.reached n generated)
  | searching {f : Frontier} : Searching P cs done todo f → Proper P cs done todo (.searching f)

namespace BreadthFirstPlanner

/-- The states that a search takes up to expand, in this order. -/
def expanded (P : Problem) (cs : List Candidate) (f : Frontier) : (remaining : Nat) → List State
  | 0 => []
  | remaining + 1 =>
    match f.queue.pop? with
    | none => []
    | some (node, queue) =>
      node.state ::
        match expand P node cs { f with queue := queue } with
        | .ok (.searching f) => expanded P cs f remaining
        | _ => []

theorem expanded_of_empty {P : Problem} {cs : List Candidate} {f : Frontier}
    (hpop : f.queue.pop? = none) (remaining : Nat) : expanded P cs f remaining = [] := by
  cases remaining with
  | zero => rfl
  | succ remaining => rw [expanded, hpop]

theorem expanded_of_pop {P : Problem} {cs : List Candidate} {f : Frontier} {remaining : Nat}
    {n : SearchNode} {queue : Queue SearchNode} (hpop : f.queue.pop? = some (n, queue)) :
    expanded P cs f (remaining + 1) = n.state ::
      match expand P n cs { f with queue := queue } with
      | .ok (.searching f) => expanded P cs f remaining
      | _ => [] := by
  rw [expanded, hpop]

end BreadthFirstPlanner

namespace Searching

open BreadthFirstPlanner Grounder

variable {P : Problem} {cs ds : List Candidate} {done : List SearchNode} {todo : List Attempt}
  {f : Frontier} {n : SearchNode}

theorem start (hP : P.NamesDistinct) (hcs : candidates P = .ok cs)
    (h : ¬ P.GoalsHold P.initialState) : Searching P cs [] [] (start P.initialState) where
  progress := Progress.start (nodup_steps hP hcs) h
  seen := by
    intro s
    show ((∅ : Std.TreeSet State State.order).insert P.initialState).contains s = true ↔
      s ∈ [P.initialState]
    rw [Std.TreeSet.contains_insert, Std.TreeSet.contains_emptyc, Bool.or_false,
      List.mem_singleton, beq_iff_eq, Std.LawfulEqCmp.compare_eq_iff_eq]
    exact eq_comm

/-- The oldest node in the queue is taken up, with all candidates to be tried on it. -/
theorem pop (h : Searching P cs done [] f) {queue : Queue SearchNode}
    (hpop : f.queue.pop? = some (n, queue)) :
    Searching P cs (done ++ [n]) (cs.map (⟨n, ·⟩)) { f with queue := queue } := by
  obtain ⟨hprogress, hseen⟩ := h
  rw [Queue.toList_of_pop? hpop, List.append_cons] at hprogress hseen
  rw [List.nil_append, attempts_cons] at hprogress
  exact ⟨hprogress, hseen⟩

/-- With nothing in the queue no attempt is left. -/
theorem exhausted (h : Searching P cs done [] f) (hpop : f.queue.pop? = none) :
    Progress P cs done [] := by
  have hprogress := h.progress
  rwa [Queue.pop?_eq_none_iff.mp hpop, List.append_nil] at hprogress

/-- One attempt that leads to a state, taken up by the search. -/
theorem visit (hP : P.NamesDistinct) (hcs : candidates P = .ok cs) {x : Attempt} {t : State}
    (h : Searching P cs done (x :: todo) f)
    (ht : P.successor x.node.state x.candidate.step = .ok (some t)) {e : Expansion}
    (he : visit P f (x.made t) = .ok e) : e.Proper P cs done todo := by
  have hprogress := h.progress
  rw [List.cons_append] at hprogress
  unfold BreadthFirstPlanner.visit at he
  split at he
  · next hseen =>
    cases he
    have hsettled := hprogress.settled_of_seen ht ((h.seen t).mp hseen)
    exact .searching ⟨hprogress.settle hsettled, h.seen⟩
  · next hunseen =>
    have hnew : t ∉ (done ++ f.queue.toList).map SearchNode.state := by
      rwa [← h.seen t]
    obtain ⟨c, hgoals, he⟩ := bind_eq_ok.mp he
    cases c with
    | none =>
      cases he
      have hbest := hprogress.best (exists_candidate_of_successor hP hcs) ht hgoals
      rw [← x.plan_made t] at hbest
      exact .reached hbest
    | some c =>
      cases he
      have hgoal : ¬ P.GoalsHold t := by
        intro hholds
        cases hgoals.symm.trans hholds
      have hpushed := hprogress.push (nodup_steps hP hcs) ht hnew hgoal
      refine .searching ⟨?_, fun s => ?_⟩
      · rwa [Queue.toList_push, ← List.append_assoc, attempts_append, ← List.append_assoc]
      · rw [Queue.toList_push, ← List.append_assoc, List.map_append, List.map_singleton,
          List.mem_append, List.mem_singleton, Std.TreeSet.contains_insert, Bool.or_eq_true,
          beq_iff_eq, Std.LawfulEqCmp.compare_eq_iff_eq, h.seen s, or_comm,
          eq_comm (a := (x.made t).state)]

/-- All attempts on a node, one after the other. -/
theorem expand (hP : P.NamesDistinct) (hcs : candidates P = .ok cs) (hds : ds ⊆ cs)
    (h : Searching P cs done (ds.map (⟨n, ·⟩)) f) {e : Expansion}
    (he : expand P n ds f = .ok e) : e.Proper P cs done [] := by
  induction ds generalizing f with
  | nil =>
    cases he
    exact .searching h
  | cons c ds ih =>
    obtain ⟨hc, hds⟩ := List.cons_subset.mp hds
    have hstep := successor_step hP hcs hc n.state
    rw [BreadthFirstPlanner.expand, ← hstep] at he
    obtain ⟨t, ht, he⟩ := bind_eq_ok.mp he
    cases t with
    | none =>
      -- the candidate is not applicable, so it leads to no state that would need a node
      have hsettled : Attempt.Settled P cs (done ++ f.queue.toList) ⟨n, c⟩ := by
        intro t' ht'
        cases ht.symm.trans ht'
      exact ih hds ⟨h.progress.settle hsettled, h.seen⟩ he
    | some t =>
      obtain ⟨e', he', he⟩ := bind_eq_ok.mp he
      cases h.visit hP hcs (x := ⟨n, c⟩) ht he' with
      | reached hbest =>
        cases he
        exact .reached hbest
      | searching hrest => exact ih hds hrest he

end Searching

/-! ## Runs of the search -/

namespace BreadthFirstPlanner

open Grounder

variable {P : Problem} {cs : List Candidate} {done : List SearchNode} {f : Frontier}
  {r : PlanResult} {expansions remaining : Nat}

inductive Explores (P : Problem) (cs : List Candidate) :
    (expansions : Nat) → Frontier → (remaining : Nat) → PlanResult → Prop where
  | exhausted {expansions remaining : Nat} {f : Frontier} : f.queue.pop? = none →
      Explores P cs expansions f remaining (unsolved .unsolvable expansions f.generated)
  | limit {expansions : Nat} {f : Frontier} {n : SearchNode} {queue : Queue SearchNode} :
      f.queue.pop? = some (n, queue) →
      Explores P cs expansions f 0 (unsolved .limitReached expansions f.generated)
  | reached {expansions remaining generated : Nat} {f : Frontier} {n m : SearchNode}
      {queue : Queue SearchNode} : f.queue.pop? = some (n, queue) →
      expand P n cs { f with queue := queue } = .ok (.reached m generated) →
      Explores P cs expansions f (remaining + 1)
        ⟨.solved, some m.plan, engineName, expansions + 1, generated⟩
  | searching {expansions remaining : Nat} {f f' : Frontier} {n : SearchNode}
      {queue : Queue SearchNode} {r : PlanResult} : f.queue.pop? = some (n, queue) →
      expand P n cs { f with queue := queue } = .ok (.searching f') →
      Explores P cs (expansions + 1) f' remaining r →
      Explores P cs expansions f (remaining + 1) r

theorem explores_of_explore (h : explore P cs expansions f remaining = .ok r) :
    Explores P cs expansions f remaining r := by
  induction remaining generalizing expansions f with
  | zero =>
    rw [explore] at h
    split at h
    · next hpop =>
      cases h
      exact .exhausted hpop
    · next hpop =>
      cases h
      exact .limit hpop
  | succ remaining ih =>
    rw [explore] at h
    split at h
    · next hpop =>
      cases h
      exact .exhausted hpop
    · next hpop =>
      obtain ⟨e, he, h⟩ := bind_eq_ok.mp h
      cases e with
      | reached m generated =>
        cases h
        exact .reached hpop he
      | searching f' => exact .searching hpop he (ih h)

namespace Explores

/-- The answer counts the states that were taken up. -/
theorem expansions_eq (h : Explores P cs expansions f remaining r) :
    r.expansions = expansions + (expanded P cs f remaining).length := by
  induction h with
  | exhausted hpop =>
    rw [expanded_of_empty hpop]
    rfl
  | limit _ => rfl
  | reached hpop he =>
    rw [expanded_of_pop hpop, he]
    rfl
  | searching hpop he _ ih =>
    rw [expanded_of_pop hpop, he, ih, List.length_cons, Nat.add_assoc, Nat.add_comm 1]

theorem solved_of_plan (h : Explores P cs expansions f remaining r) {g : Plan}
    (hg : r.plan = some g) : r.status = .solved := by
  induction h with
  | exhausted _ => cases hg
  | limit _ => cases hg
  | reached _ _ => rfl
  | searching _ _ _ ih => exact ih hg

theorem best (hP : P.NamesDistinct) (hcs : candidates P = .ok cs)
    (h : Explores P cs expansions f remaining r) (hf : Searching P cs done [] f)
    (hr : r.status = .solved) : ∃ g, r.plan = some g ∧ P.Best cs g := by
  induction h generalizing done with
  | exhausted _ => cases hr
  | limit _ => cases hr
  | reached hpop he =>
    cases (hf.pop hpop).expand hP hcs (List.Subset.refl cs) he with
    | reached hbest => exact ⟨_, rfl, hbest⟩
  | searching hpop he _ ih =>
    cases (hf.pop hpop).expand hP hcs (List.Subset.refl cs) he with
    | searching hrest => exact ih hrest hr

/-- A search that ends with an empty queue has made progress to the end of its agenda, and the
states of its nodes are those it has expanded. -/
theorem progress (hP : P.NamesDistinct) (hcs : candidates P = .ok cs)
    (h : Explores P cs expansions f remaining r) (hf : Searching P cs done [] f)
    (hr : r.status = .unsolvable) :
    ∃ nodes, Progress P cs nodes [] ∧
      nodes.map SearchNode.state = done.map SearchNode.state ++ expanded P cs f remaining := by
  induction h generalizing done with
  | exhausted hpop =>
    rw [expanded_of_empty hpop]
    exact ⟨done, hf.exhausted hpop, (List.append_nil _).symm⟩
  | limit _ => cases hr
  | reached _ _ => cases hr
  | searching hpop he _ ih =>
    cases (hf.pop hpop).expand hP hcs (List.Subset.refl cs) he with
    | searching hrest =>
      obtain ⟨nodes, hnodes, hstates⟩ := ih hrest hr
      refine ⟨nodes, hnodes, ?_⟩
      rw [hstates, expanded_of_pop hpop, he, List.map_append, List.map_singleton,
        List.append_assoc]
      rfl

end Explores

/-- A search answers at once if the goals hold initially or it was cancelled, and else by
exploring. -/
theorem solve_cases {p : BreadthFirstPlanner} (h : p.solve P = .ok r) :
    ∃ cs, candidates P = .ok cs ∧
      ((P.GoalsHold P.initialState ∧ r = ⟨.solved, some [], engineName, 0, 0⟩) ∨
        (¬ P.GoalsHold P.initialState ∧
          (r = unsolved .cancelled 0 0 ∨
            Explores P cs 0 (start P.initialState) p.options.maxExpansions r))) := by
  obtain ⟨cs, hcs, h⟩ := bind_eq_ok.mp h
  obtain ⟨c, hgoals, h⟩ := bind_eq_ok.mp h
  refine ⟨cs, hcs, ?_⟩
  cases c with
  | none =>
    cases h
    exact .inl ⟨hgoals, rfl⟩
  | some c =>
    have hstart : ¬ P.GoalsHold P.initialState := by
      intro hholds
      cases hgoals.symm.trans hholds
    refine .inr ⟨hstart, ?_⟩
    dsimp only at h
    split at h
    · cases h
      exact .inl rfl
    · exact .inr (explores_of_explore h)

/-- Only a search that solves the problem has a plan. -/
theorem solved_of_plan {p : BreadthFirstPlanner} (h : p.solve P = .ok r) {g : Plan}
    (hg : r.plan = some g) : r.status = .solved := by
  obtain ⟨cs, _, ⟨_, rfl⟩ | ⟨_, rfl | hexplores⟩⟩ := solve_cases h
  · rfl
  · cases hg
  · exact hexplores.solved_of_plan hg

theorem best_of_solve (hP : P.NamesDistinct) {p : BreadthFirstPlanner} (h : p.solve P = .ok r)
    (hr : r.status = .solved) :
    ∃ cs g, candidates P = .ok cs ∧ r.plan = some g ∧ P.Best cs g := by
  obtain ⟨cs, hcs, ⟨hgoals, rfl⟩ | ⟨hstart, rfl | hexplores⟩⟩ := solve_cases h
  · -- the goals hold initially, and no plan is shorter than the empty one
    exact ⟨cs, [], hcs, rfl, ⟨_, .nil, hgoals⟩, fun q _ => Plan.rank_nil_le q⟩
  · cases hr
  · obtain ⟨g, hg, hbest⟩ := hexplores.best hP hcs (.start hP hcs hstart) hr
    exact ⟨cs, g, hcs, hg, hbest⟩

theorem exhausted_of_solve (hP : P.NamesDistinct) {p : BreadthFirstPlanner}
    (h : p.solve P = .ok r) (hr : r.status = .unsolvable) :
    ∃ cs nodes, candidates P = .ok cs ∧ Progress P cs nodes [] ∧
      nodes.map SearchNode.state =
        expanded P cs (start P.initialState) p.options.maxExpansions ∧
      r.expansions = (nodes.map SearchNode.state).length := by
  obtain ⟨cs, hcs, ⟨_, rfl⟩ | ⟨hstart, rfl | hexplores⟩⟩ := solve_cases h
  · cases hr
  · cases hr
  · obtain ⟨nodes, hnodes, hstates⟩ := hexplores.progress hP hcs (.start hP hcs hstart) hr
    refine ⟨cs, nodes, hcs, hnodes, hstates, ?_⟩
    rw [hstates, hexplores.expansions_eq, Nat.zero_add]
    rfl

end BreadthFirstPlanner

/-! ## Example -/

namespace Examples

/-- Roads from `a` to `d` by `b` and by `c`, and none to `e`. The goal is to be at some place. -/
def forks (goal : String) : Problem :=
  let place (x : String) : Parameter := ⟨x, "place"⟩
  let located (x : Expr) : Expr := .fluent "at" [x]
  .build "forks" [
    .addType "place" none,
    .addObjects ["a", "b", "c", "d", "e"] "place",
    .addFluent (.predicate "at" [place "x"]),
    .addFluent (.predicate "road" [place "x", place "y"]),
    .addAction ⟨"drive", [place "x", place "y"],
      [located (v "x"), .fluent "road" [v "x", v "y"]],
      [makes "at" [v "x"] false, makes "at" [v "y"] true]⟩,
    .setTrue "at" ["a"],
    .setTrue "road" ["a", "b"],
    .setTrue "road" ["a", "c"],
    .setTrue "road" ["b", "d"],
    .setTrue "road" ["c", "d"],
    .addGoal (located (o goal))]

theorem forks_built (goal : String) : (forks goal).Built := ⟨_, _, rfl⟩

def forkPlan : Plan := [⟨"drive", ["a", "b"]⟩, ⟨"drive", ["b", "d"]⟩]

end Examples

/-! ## Found plans, and their absence -/

namespace BreadthFirstPlanner

open Examples Grounder

variable {P : Problem} {r : PlanResult}

/-- A plan that the search finds is valid with all its steps made, in the problem without metrics.
No valid plan is shorter, and any other that is as short comes later, comparing the positions of
the steps among the candidates from the left. The candidates are in the order of declaration, of
their actions and then of their arguments. -/
theorem solved_plan_first (hP : P.Built) {p : BreadthFirstPlanner} (h : p.solve P = .ok r)
    (hr : r.status = .solved) :
    ∃ cs g, candidates P = .ok cs ∧ cs.Pairwise (fun c d => P.place c.step < P.place d.step) ∧
      r.plan = some g ∧
      (∀ v : PlanValidator, v.cancelled = false →
        v.validate P.clearMetrics g = .ok ⟨.valid, v.name, none, g.length, []⟩) ∧
      ∀ (v : PlanValidator) (q : Plan) (out : ValidationResult),
        v.validate P.clearMetrics q = .ok out → out.verdict = .valid →
          g.length ≤ q.length ∧
            (q.length = g.length → q = g ∨ g.positions cs < q.positions cs) := by
  have hnames := hP.namesDistinct
  obtain ⟨cs, g, hcs, hg, hsolves, hfirst⟩ := best_of_solve hnames h hr
  refine ⟨cs, g, hcs, candidates_ordered hnames hcs, hg, fun v hv => ?_, ?_⟩
  · exact PlanValidator.validate_of_solves hv rfl (Problem.solves_clearMetrics.mpr hsolves)
  · intro v q out hout hvalid
    have hq : P.Solves q :=
      Problem.solves_clearMetrics.mp (PlanValidator.solves_of_validate hout hvalid)
    rcases Plan.rank_le_iff.mp (hfirst q hq) with hlt | ⟨heq, hle⟩
    · exact ⟨hlt.le, fun heq => absurd heq hlt.ne'⟩
    · refine ⟨heq.le, fun _ => ?_⟩
      rcases hle.lt_or_eq with hlt | hpositions
      · exact .inr hlt
      · exact .inl (Plan.eq_of_positions (mem_steps_of_solves hnames hcs hsolves) hpositions).symm

theorem solved_plan_first_forks :
    ∃ cs, candidates (forks "d") = .ok cs ∧
      ∀ (v : PlanValidator) (q : Plan) (out : ValidationResult),
        v.validate (forks "d").clearMetrics q = .ok out → out.verdict = .valid →
          2 ≤ q.length ∧
            (q.length = 2 → q = forkPlan ∨ Plan.positions cs forkPlan < q.positions cs) := by
  have hsolve : solve {} (forks "d") = .ok ⟨.solved, some forkPlan, "breadth-first", 2, 3⟩ := by
    decide +kernel
  obtain ⟨cs, g, hcs, _, hg, _, hfirst⟩ := solved_plan_first (forks_built "d") hsolve rfl
  cases hg
  exact ⟨cs, hcs, hfirst⟩

/-- A problem that the search finds unsolvable has no valid plan, metrics left out. The search has
expanded every state that applicable steps lead to from the initial one, each of them once. -/
theorem unsolvable_exhaustive (hP : P.Built) {p : BreadthFirstPlanner} (h : p.solve P = .ok r)
    (hr : r.status = .unsolvable) :
    (∀ (v : PlanValidator) (q : Plan) (out : ValidationResult),
      v.validate P.clearMetrics q = .ok out → out.verdict ≠ .valid) ∧
    ∃ cs states, candidates P = .ok cs ∧
      states = expanded P cs (start P.initialState) p.options.maxExpansions ∧
      states.Nodup ∧ (∀ s, s ∈ states ↔ ∃ q, P.Leads P.initialState q s) ∧
      r.expansions = states.length := by
  have hnames := hP.namesDistinct
  obtain ⟨cs, nodes, hcs, hnodes, hstates, hcount⟩ := exhausted_of_solve hnames h hr
  have hall := exists_candidate_of_successor hnames hcs
  refine ⟨fun v q out hout hvalid => ?_, cs, _, hcs, hstates, hnodes.distinct,
    fun s => hnodes.reached_iff hall, hcount⟩
  exact hnodes.not_solves hall
    (Problem.solves_clearMetrics.mp (PlanValidator.solves_of_validate hout hvalid))

theorem unsolvable_exhaustive_forks :
    (∀ (v : PlanValidator) (q : Plan) (out : ValidationResult),
      v.validate (forks "e").clearMetrics q = .ok out → out.verdict ≠ .valid) ∧
    ∃ states : List State, states.Nodup ∧
      (∀ s, s ∈ states ↔ ∃ q, (forks "e").Leads (forks "e").initialState q s) ∧
      states.length = 4 := by
  have hsolve : solve {} (forks "e") = .ok ⟨.unsolvable, none, "breadth-first", 4, 4⟩ := by
    decide +kernel
  obtain ⟨hnone, _, states, _, _, hnodup, hreached, hcount⟩ :=
    unsolvable_exhaustive (forks_built "e") hsolve rfl
  exact ⟨hnone, states, hnodup, hreached, hcount.symm⟩

end BreadthFirstPlanner

end LiftedPlanning
