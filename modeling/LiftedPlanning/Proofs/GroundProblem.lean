import LiftedPlanning.Search
import Mathlib.Data.List.Perm.Subperm
import LiftedPlanning.Proofs.Building
import LiftedPlanning.Proofs.GroundActions
import LiftedPlanning.Proofs.Reachability

/-!
# What grounding makes

`Grounder.ground` runs over actions, argument lists, goals and metrics. Its outcome is described
here without the runs: `Grounder.Makes` relates a problem to its grounding, by the candidates that
were looked at and the ground actions made of them, in the same order. A candidate without a
ground action was pruned, and is applicable nowhere.

Everything about plans and searches is proved from this description.
-/

namespace LiftedPlanning

def Grounded.candidate (g : Grounded) : Candidate := ⟨g.origin, g.args⟩

def Grounded.groundCandidate (g : Grounded) : Candidate := ⟨g.action, []⟩

def Grounded.step (g : Grounded) : ActionInstance := .ground g.name

/-! ## Names in use -/

theorem Grounding.nodup_names (g : Grounding) : (g.made.map Grounded.name).Nodup := by
  have hnodup : g.names.toList.Nodup :=
    Std.TreeSet.distinct_toList.imp fun hne heq => hne (Std.LawfulEqCmp.compare_eq_iff_eq.mpr heq)
  have hsub : g.names.toList ⊆ g.made.map Grounded.name := by
    intro n hn
    exact (g.mem_names n).mp (Std.TreeSet.mem_toList.mp hn)
  have hlen : (g.made.map Grounded.name).length = g.names.toList.length := by
    rw [List.length_map, Std.TreeSet.length_toList, g.size_names]
  -- as many names as ground actions, and all of them theirs: no name is theirs twice
  exact ((hnodup.subperm hsub).perm_of_length_le (Nat.le_of_eq hlen)).nodup_iff.mp hnodup

namespace Grounder

/-! ## Candidates and the ground actions made of them -/

def factsOf (G : Grounder) (P : Problem) : Option StaticFacts :=
  if G.options.pruneStatic then some (.ofProblem P) else none

/-- In every reachable state the facts that were used hold. -/
theorem factsHold_of_reaches {G : Grounder} {P : Problem} {s : State}
    (hs : P.Reaches P.initialState s) : FactsHold P.toVocabulary (G.factsOf P) s := by
  intro F hF
  unfold factsOf at hF
  split at hF
  · cases hF
    exact ⟨rfl, StaticFacts.holdIn_of_reaches hs⟩
  · cases hF

/-- The ground actions made of a list of candidates, in the same order; the others were pruned. -/
inductive Kept (V : Vocabulary) (facts : Option StaticFacts) :
    List Candidate → List Grounded → Prop where
  | nil : Kept V facts [] []
  | prune {c : Candidate} {cs : List Candidate} {gs : List Grounded} :
      groundAction V facts c.binding c.action = .ok none → Kept V facts cs gs →
      Kept V facts (c :: cs) gs
  | keep {g : Grounded} {cs : List Candidate} {gs : List Grounded} :
      Stands V facts g → Kept V facts cs gs → Kept V facts (g.candidate :: cs) (g :: gs)

section Kept

variable {V : Vocabulary} {facts : Option StaticFacts} {cs cs' : List Candidate}
  {gs gs' : List Grounded}

theorem Kept.append (h : Kept V facts cs gs) (h' : Kept V facts cs' gs') :
    Kept V facts (cs ++ cs') (gs ++ gs') := by
  induction h with
  | nil => exact h'
  | prune hc _ ih => exact .prune hc ih
  | keep hg _ ih => exact .keep hg ih

theorem Kept.stands (h : Kept V facts cs gs) : ∀ g ∈ gs, Stands V facts g := by
  induction h with
  | nil => exact List.forall_mem_nil _
  | prune _ _ ih => exact ih
  | keep hg _ ih => exact List.forall_mem_cons.mpr ⟨hg, ih⟩

theorem Kept.sublist (h : Kept V facts cs gs) : (gs.map Grounded.candidate).Sublist cs := by
  induction h with
  | nil => exact .slnil
  | prune _ _ ih => exact .cons _ ih
  | keep _ _ ih => exact .cons_cons _ ih

/-- Every candidate has its ground action or was pruned. -/
theorem Kept.exists_or_pruned (h : Kept V facts cs gs) {c : Candidate} (hc : c ∈ cs) :
    (∃ g ∈ gs, g.candidate = c) ∨ groundAction V facts c.binding c.action = .ok none := by
  induction h with
  | nil => cases hc
  | prune hpruned _ ih =>
    rcases List.mem_cons.mp hc with rfl | hc
    · exact .inr hpruned
    · exact ih hc
  | @keep g cs gs _ _ ih =>
    rcases List.mem_cons.mp hc with rfl | hc
    · exact .inl ⟨g, List.mem_cons_self, rfl⟩
    · rcases ih hc with ⟨g', hg', rfl⟩ | hpruned
      · exact .inl ⟨g', List.mem_cons_of_mem _ hg', rfl⟩
      · exact .inr hpruned

/-- The ground actions kept of some candidates were made on top of those made before. -/
def Extends (V : Vocabulary) (facts : Option StaticFacts) (cs : List Candidate)
    (g g' : Grounding) : Prop :=
  ∃ gs, Kept V facts cs gs ∧ g'.made = gs.reverse ++ g.made

theorem Extends.trans {g g' g'' : Grounding} (h : Extends V facts cs g g')
    (h' : Extends V facts cs' g' g'') : Extends V facts (cs ++ cs') g g'' := by
  obtain ⟨gs, hgs, hmade⟩ := h
  obtain ⟨gs', hgs', hmade'⟩ := h'
  refine ⟨gs ++ gs', hgs.append hgs', ?_⟩
  rw [hmade', hmade, List.reverse_append, List.append_assoc]

/-- If every step of a run goes through the candidates of its element, the run goes through the
candidates of all elements, one after the other. -/
theorem foldlM_extends {α ε : Type} {f : Grounding → α → Except ε Grounding}
    {candidates : α → Except ModelError (List Candidate)} {xs : List α} {g g' : Grounding}
    (h : xs.foldlM f g = .ok g')
    (hf : ∀ x g g', f g x = .ok g' → ∃ cs, candidates x = .ok cs ∧ Extends V facts cs g g') :
    ∃ css, xs.mapM candidates = .ok css ∧ Extends V facts css.flatten g g' := by
  induction xs generalizing g with
  | nil =>
    cases h
    exact ⟨[], rfl, [], .nil, rfl⟩
  | cons x xs ih =>
    rw [List.foldlM_cons] at h
    obtain ⟨g₁, hx, hxs⟩ := bind_eq_ok.mp h
    obtain ⟨cs, hcs, hext⟩ := hf x g g₁ hx
    obtain ⟨css, hcss, hexts⟩ := ih hxs
    exact ⟨cs :: css, mapM_eq_ok.mpr (.cons hcs (mapM_eq_ok.mp hcss)), hext.trans hexts⟩

end Kept

/-! ## Runs over actions and arguments -/

section Runs

variable {G : Grounder} {P : Problem} {facts : Option StaticFacts}

/-- For one more list of arguments either nothing is made, because a precondition folded to false,
or one ground action under a fresh name. -/
theorem groundArgs_cases {a : Action} {args : List String} {g g' : Grounding}
    (h : G.groundArgs P facts a g args = .ok g') :
    (groundAction P.toVocabulary facts (.ofArgs a.parameters args) a = .ok none ∧ g' = g) ∨
      ∃ x : Grounded, x.lifted = ⟨a.name, args⟩ ∧ x.candidate = ⟨a, args⟩ ∧
        x.name = FreshName.fresh g.names ("_".intercalate (a.name :: args)) ∧
        Stands P.toVocabulary facts x ∧ g'.made = x :: g.made := by
  unfold groundArgs at h
  split at h
  · cases h
  · obtain ⟨r, hr, h⟩ := bind_eq_ok.mp h
    replace hr := mapError_eq_ok.mp hr
    cases r with
    | none =>
      cases h
      exact .inl ⟨hr, rfl⟩
    | some r =>
      obtain ⟨preconditions, effects⟩ := r
      obtain ⟨hpre, heff⟩ := groundAction_eq_some hr
      dsimp only at h
      split at h
      · cases h
      · obtain ⟨_, _, ⟨⟩⟩ := bind_eq_ok.mp (mapError_eq_ok.mp h)
        exact .inr ⟨⟨⟨_, [], preconditions, effects⟩, a, args⟩, rfl, rfl, rfl, ⟨rfl, hpre, heff⟩,
          rfl⟩

theorem groundArgs_extends {a : Action} {args : List String} {g g' : Grounding}
    (h : G.groundArgs P facts a g args = .ok g') :
    Extends P.toVocabulary facts [⟨a, args⟩] g g' := by
  rcases groundArgs_cases h with ⟨hpruned, rfl⟩ | ⟨x, _, hcandidate, _, hstands, hmade⟩
  · exact ⟨[], .prune hpruned .nil, rfl⟩
  · rw [← hcandidate]
    exact ⟨[x], .keep hstands .nil, hmade⟩

theorem groundSchema_extends {a : Action} {g g' : Grounding}
    (h : G.groundSchema P facts g a = .ok g') :
    ∃ cs, BreadthFirstPlanner.candidatesOf P a = .ok cs ∧ Extends P.toVocabulary facts cs g g' := by
  obtain ⟨ds, hds, h⟩ := bind_eq_ok.mp h
  replace hds := mapError_eq_ok.mp hds
  rw [foldTuples_eq] at h
  have hstep : ∀ args g g', G.groundArgs P facts a g args = .ok g' →
      ∃ cs, Except.ok [⟨a, args⟩] = Except.ok (ε := ModelError) cs ∧
        Extends P.toVocabulary facts cs g g' :=
    fun args g g' hargs => ⟨_, rfl, groundArgs_extends hargs⟩
  obtain ⟨css, hcss, hext⟩ := foldlM_extends h hstep
  have hsingles : (tuples ds).mapM (fun args => Except.ok (ε := ModelError) [Candidate.mk a args]) =
      .ok ((tuples ds).map fun args => [⟨a, args⟩]) := List.mapM_pure
  obtain rfl := Except.ok.inj (hsingles.symm.trans hcss)
  refine ⟨_, ?_, hext⟩
  rw [BreadthFirstPlanner.candidatesOf, Vocabulary.bindings, hds, ← List.flatMap_def,
    ← List.map_eq_flatMap]
  show Except.ok ((listTuples ds).map _) = _
  rw [listTuples_eq]

theorem groundSchemas_extends {g g' : Grounding}
    (h : P.actions.foldlM (G.groundSchema P facts) g = .ok g') :
    ∃ cs, BreadthFirstPlanner.candidates P = .ok cs ∧ Extends P.toVocabulary facts cs g g' := by
  obtain ⟨css, hcss, hext⟩ := foldlM_extends h fun a g g' => groundSchema_extends
  refine ⟨css.flatten, ?_, hext⟩
  rw [BreadthFirstPlanner.candidates, hcss]
  rfl

/-! ## Runs over goals and metrics -/

theorem groundGoals_residue {goals : List Expr} {Q R : Problem}
    (h : goals.foldlM (groundGoal P facts) Q = .ok R) :
    ∃ rest, Residue P.toVocabulary facts .empty goals rest ∧
      R = { Q with goals := Q.goals ++ rest } := by
  induction goals generalizing Q with
  | nil =>
    cases h
    exact ⟨[], .nil, by rw [List.append_nil]⟩
  | cons goal goals ih =>
    rw [List.foldlM_cons] at h
    obtain ⟨Q₁, hgoal, hgoals⟩ := bind_eq_ok.mp h
    obtain ⟨e, he, hgoal⟩ := bind_eq_ok.mp hgoal
    obtain ⟨rest, hrest, rfl⟩ := ih hgoals
    split at hgoal
    · next htrue =>
      cases hgoal
      obtain ⟨hfacts, hetrue⟩ := Bool.and_eq_true_iff.mp htrue
      obtain rfl : e = .bool true := by simpa using hetrue
      exact ⟨rest, .drop hfacts he hrest, rfl⟩
    · obtain ⟨_, _, ⟨⟩⟩ := bind_eq_ok.mp hgoal
      refine ⟨e :: rest, .keep he hrest, ?_⟩
      rw [List.append_assoc]
      rfl

theorem foldl_addMetric (ms : List QualityMetric) (Q : Problem) :
    ms.foldl Problem.addMetric Q = { Q with metrics := Q.metrics ++ ms } := by
  induction ms generalizing Q with
  | nil => rw [List.append_nil]; rfl
  | cons m ms ih =>
    rw [List.foldl_cons, ih, Problem.addMetric, List.append_assoc]
    rfl

end Runs

/-! ## The ground problem -/

/-- `R` is what the grounder makes of a problem: `cs` are the candidates of the problem and `made`
the ground actions made of them. -/
structure Makes (G : Grounder) (P : Problem) (R : CompilerResult) (cs : List Candidate)
    (made : List Grounded) : Prop where
  candidates : BreadthFirstPlanner.candidates P = .ok cs
  kept : Kept P.toVocabulary (G.factsOf P) cs made
  distinct : (made.map Grounded.name).Nodup
  vocabulary : R.problem.toVocabulary = P.toVocabulary
  initialValues : R.problem.initialValues = P.initialValues
  actions : R.problem.actions = made.map Grounded.action
  goals : Residue P.toVocabulary (G.factsOf P) .empty P.goals R.problem.goals
  metrics : P.metrics.mapM (groundMetric P.toVocabulary (G.factsOf P) made) = .ok R.problem.metrics
  names : R.names = namesOf made

/-- Whatever grounding answers is so made. -/
theorem makes_of_ground {G : Grounder} {P : Problem} {R : CompilerResult}
    (h : G.ground P = .ok R) : ∃ cs made, G.Makes P R cs made := by
  unfold ground at h
  split at h
  · obtain ⟨grounding, hactions, h⟩ := bind_eq_ok.mp h
    obtain ⟨Q, hgoals, h⟩ := bind_eq_ok.mp h
    obtain ⟨ms, hms, ⟨⟩⟩ := bind_eq_ok.mp h
    obtain ⟨cs, hcs, made, hkept, hmade⟩ := groundSchemas_extends hactions
    obtain ⟨rest, hrest, rfl⟩ := groundGoals_residue (mapError_eq_ok.mp hgoals)
    replace hms := mapError_eq_ok.mp hms
    have hreverse : grounding.made.reverse = made := by
      rw [hmade]
      exact (List.append_nil _ ▸ List.reverse_reverse made)
    rw [foldl_addMetric, hreverse]
    -- ground actions are listed newest first while they are made
    refine ⟨cs, made, hcs, hkept, ?_, rfl, rfl, rfl, hrest, hreverse ▸ hms, rfl⟩
    rw [← hreverse, List.map_reverse]
    exact List.nodup_reverse.mpr grounding.nodup_names
  · cases h

/-! ## Candidates and accepted steps -/

section Candidates

variable {P : Problem} {cs : List Candidate}

theorem candidatesOf_eq_ok {a : Action} {cs : List Candidate}
    (h : BreadthFirstPlanner.candidatesOf P a = .ok cs) :
    ∃ ds, P.domains a.parameters = .ok ds ∧ cs = (tuples ds).map (⟨a, ·⟩) := by
  obtain ⟨argss, hargss, ⟨⟩⟩ := bind_eq_ok.mp h
  obtain ⟨ds, hds, ⟨⟩⟩ := bind_eq_ok.mp hargss
  exact ⟨ds, hds, by rw [listTuples_eq]⟩

/-- The candidates are the applications of actions that are accepted in a plan. -/
theorem mem_candidates (hP : P.NamesDistinct) (h : BreadthFirstPlanner.candidates P = .ok cs)
    {c : Candidate} :
    c ∈ cs ↔ c.action ∈ P.actions ∧ P.checkArguments c.action c.args = .ok () := by
  obtain ⟨css, hcss, ⟨⟩⟩ := bind_eq_ok.mp h
  rw [List.mem_flatten]
  constructor
  · rintro ⟨l, hl, hc⟩
    obtain ⟨a, ha, hl⟩ := exists_of_mem_mapM hcss hl
    obtain ⟨ds, hds, rfl⟩ := candidatesOf_eq_ok hl
    obtain ⟨args, hargs, rfl⟩ := List.mem_map.mp hc
    exact ⟨ha, (Vocabulary.mem_tuples_domains hP.objects hds).mp hargs⟩
  · rintro ⟨ha, hargs⟩
    obtain ⟨l, hl, hal⟩ := exists_mem_of_mapM hcss ha
    obtain ⟨ds, hds, rfl⟩ := candidatesOf_eq_ok hal
    have hmem := (Vocabulary.mem_tuples_domains hP.objects hds).mpr hargs
    exact ⟨_, hl, List.mem_map.mpr ⟨c.args, hmem, rfl⟩⟩

/-- Different candidates are different steps. -/
theorem nodup_steps (hP : P.NamesDistinct) (h : BreadthFirstPlanner.candidates P = .ok cs) :
    (cs.map Candidate.step).Nodup := by
  obtain ⟨css, hcss, ⟨⟩⟩ := bind_eq_ok.mp h
  have hnames := hP.actions
  have hall := mapM_eq_ok.mp hcss
  clear h hcss
  generalize P.actions = as at hnames hall
  induction hall with
  | nil => exact List.nodup_nil
  | @cons a l as css hl hcss ih =>
    rw [List.map_cons, List.nodup_cons] at hnames
    obtain ⟨ds, hds, rfl⟩ := candidatesOf_eq_ok hl
    rw [List.flatten_cons, List.map_append]
    refine List.nodup_append.mpr ⟨?_, ih hnames.2, ?_⟩
    · rw [List.map_map]
      refine (Vocabulary.nodup_tuples_domains hP.objects hds).map fun args args' heq => ?_
      exact congrArg ActionInstance.args heq
    · -- candidates of different actions differ in the name of the action
      intro i hi j hj hij
      obtain ⟨c, hc, rfl⟩ := List.mem_map.mp hi
      obtain ⟨d, hd, rfl⟩ := List.mem_map.mp hj
      obtain ⟨args, _, rfl⟩ := List.mem_map.mp hc
      obtain ⟨l, hl', hd⟩ := List.mem_flatten.mp hd
      obtain ⟨a', ha', hl'⟩ := exists_left_of_forall₂ hcss hl'
      obtain ⟨ds', _, rfl⟩ := candidatesOf_eq_ok hl'
      obtain ⟨args', _, rfl⟩ := List.mem_map.mp hd
      have hname : a.name = a'.name := congrArg ActionInstance.action hij
      exact hnames.1 (List.mem_map.mpr ⟨a', ha', hname.symm⟩)

end Candidates

/-! ## Look-ups in the ground problem -/

namespace Makes

variable {G : Grounder} {P : Problem} {R : CompilerResult} {cs : List Candidate}
  {made : List Grounded} {g : Grounded}

theorem initialState (h : G.Makes P R cs made) : R.problem.initialState = P.initialState := by
  have hfluents : R.problem.fluents = P.fluents := congrArg Vocabulary.fluents h.vocabulary
  unfold Problem.initialState Problem.implicitValue
  rw [h.initialValues, hfluents]

theorem mem_candidates (h : G.Makes P R cs made) (hg : g ∈ made) : g.candidate ∈ cs :=
  h.kept.sublist.subset (List.mem_map_of_mem hg)

theorem origin_mem (h : G.Makes P R cs made) (hP : P.NamesDistinct) (hg : g ∈ made) :
    g.origin ∈ P.actions :=
  ((Grounder.mem_candidates hP h.candidates).mp (h.mem_candidates hg)).1

theorem action_lifted (h : G.Makes P R cs made) (hP : P.NamesDistinct) (hg : g ∈ made) :
    P.action g.origin.name = .ok g.origin := by
  rw [Problem.action, find?_key_eq_some hP.actions (h.origin_mem hP hg)]

theorem checkArguments_lifted (h : G.Makes P R cs made) (hP : P.NamesDistinct) (hg : g ∈ made) :
    P.checkArguments g.origin g.args = .ok () :=
  ((Grounder.mem_candidates hP h.candidates).mp (h.mem_candidates hg)).2

theorem action_ground (h : G.Makes P R cs made) (hg : g ∈ made) :
    R.problem.action g.name = .ok g.action := by
  have hnames : (R.problem.actions.map Action.name).Nodup := by
    rw [h.actions, List.map_map]
    exact h.distinct
  have hmem : g.action ∈ R.problem.actions := by
    rw [h.actions]
    exact List.mem_map_of_mem hg
  rw [Problem.action, Grounded.name, find?_key_eq_some hnames hmem]

theorem checkArguments_ground (h : G.Makes P R cs made) (hg : g ∈ made) :
    R.problem.checkArguments g.action [] = .ok () := by
  rw [Vocabulary.checkArguments, (h.kept.stands g hg).parameters]
  rfl

/-! ## Names and lifted instances -/

theorem mem_entries (h : G.Makes P R cs made) (hg : g ∈ made) :
    (g.name, g.lifted) ∈ R.names.entries := by
  rw [h.names, namesOf]
  exact List.mem_map.mpr ⟨g, hg, rfl⟩

theorem nodup_lifted (h : G.Makes P R cs made) (hP : P.NamesDistinct) :
    (made.map Grounded.lifted).Nodup := by
  have hsub : (made.map Grounded.lifted).Sublist (cs.map Candidate.step) := by
    have hsteps := h.kept.sublist.map Candidate.step
    rwa [List.map_map] at hsteps
  exact (nodup_steps hP h.candidates).sublist hsub

/-- The way back from a name is its entry in the table. -/
theorem mapBack_eq_ok_iff (h : G.Makes P R cs made) {n : String} {i : ActionInstance} :
    R.mapBack (.ground n) = .ok i ↔ (n, i) ∈ R.names.entries := by
  have hkeys : (R.names.entries.map Prod.fst).Nodup := by
    rw [h.names, namesOf, List.map_map]
    exact h.distinct
  have hlifted : R.names.lifted? (.ground n) = some i ↔ (n, i) ∈ R.names.entries := by
    show (R.names.entries.find? fun e => e.1 = n).map Prod.snd = some i ↔ _
    simp [Option.map_eq_some_iff, find?_key_eq_some_iff hkeys]
  rw [← hlifted, CompilerResult.mapBack]
  cases R.names.lifted? (.ground n) <;> simp

/-- The way from a step to its ground action is the entry in the table too. -/
theorem groundName?_eq_some_iff (h : G.Makes P R cs made) (hP : P.NamesDistinct) {n : String}
    {i : ActionInstance} : R.names.groundName? i = some n ↔ (n, i) ∈ R.names.entries := by
  have hkeys : (R.names.entries.map Prod.snd).Nodup := by
    rw [h.names, namesOf, List.map_map]
    exact h.nodup_lifted hP
  show (R.names.entries.find? fun e => e.2 = i).map Prod.fst = some n ↔ _
  simp [Option.map_eq_some_iff, find?_key_eq_some_iff hkeys]

theorem mapBack_step (h : G.Makes P R cs made) (hg : g ∈ made) :
    R.mapBack g.step = .ok g.lifted :=
  h.mapBack_eq_ok_iff.mpr (h.mem_entries hg)

theorem groundName?_lifted (h : G.Makes P R cs made) (hP : P.NamesDistinct) (hg : g ∈ made) :
    R.names.groundName? g.lifted = some g.name :=
  (h.groundName?_eq_some_iff hP).mpr (h.mem_entries hg)

theorem mapBackPlan_steps (h : G.Makes P R cs made) {gs : List Grounded}
    (hgs : ∀ g ∈ gs, g ∈ made) :
    R.mapBackPlan (gs.map Grounded.step) = .ok (gs.map Grounded.lifted) := by
  refine mapM_eq_ok.mpr ?_
  rw [List.forall₂_map_left_iff, List.forall₂_map_right_iff]
  exact List.forall₂_same.mpr fun g hg => h.mapBack_step (hgs g hg)

/-- A plan of argument-free instances of ground actions. -/
theorem exists_steps (h : G.Makes P R cs made) {p : Plan}
    (hp : ∀ i ∈ p, ∃ a ∈ R.problem.actions, i = .ground a.name) :
    ∃ gs : List Grounded, (∀ g ∈ gs, g ∈ made) ∧ p = gs.map Grounded.step := by
  induction p with
  | nil => exact ⟨[], List.forall_mem_nil _, rfl⟩
  | cons i p ih =>
    obtain ⟨hi, hrest⟩ := List.forall_mem_cons.mp hp
    obtain ⟨gs, hgs, rfl⟩ := ih hrest
    obtain ⟨a, ha, rfl⟩ := hi
    rw [h.actions] at ha
    obtain ⟨g, hg, rfl⟩ := List.mem_map.mp ha
    exact ⟨g :: gs, List.forall_mem_cons.mpr ⟨hg, hgs⟩, rfl⟩

/-- An accepted step has its ground action or was pruned. -/
theorem exists_or_pruned (h : G.Makes P R cs made) (hP : P.NamesDistinct) {i : ActionInstance}
    {a : Action} (ha : P.action i.action = .ok a) (hargs : P.checkArguments a i.args = .ok ()) :
    (∃ g ∈ made, g.lifted = i ∧ g.origin = a) ∨
      groundAction P.toVocabulary (G.factsOf P) (.ofArgs a.parameters i.args) a = .ok none := by
  obtain ⟨hmem, hname⟩ := Problem.action_eq_ok ha
  have hc : (⟨a, i.args⟩ : Candidate) ∈ cs :=
    (Grounder.mem_candidates hP h.candidates).mpr ⟨hmem, hargs⟩
  rcases h.kept.exists_or_pruned hc with ⟨g, hg, hcandidate⟩ | hpruned
  · obtain ⟨rfl, hargs'⟩ := Candidate.mk.inj hcandidate
    refine .inl ⟨g, hg, ?_, rfl⟩
    rw [Grounded.lifted, hname, hargs']
  · exact .inr hpruned

end Makes

end Grounder

/-! ## Example -/

namespace Examples

/-- A grounder without limits, with pruning or without. -/
def grounder (prune : Bool) : Grounder := ⟨⟨prune, none⟩, .all, false⟩

/-- The grounding of the roads. With pruning there are only the drives along a road. -/
def groundRoads (prune : Bool) : CompilerResult :=
  ((grounder prune).ground roads).toOption.getD ⟨roads, .empty, ""⟩

theorem ground_roads (prune : Bool) : (grounder prune).ground roads = .ok (groundRoads prune) := by
  revert prune
  decide +kernel

/-- Driving from `a` to `c` on the roads, and on their grounding. -/
def roadPlan : Plan := [⟨"drive", ["a", "b"]⟩, ⟨"drive", ["b", "c"]⟩]

@[inherit_doc roadPlan]
def groundRoadPlan : Plan := [.ground "drive_a_b", .ground "drive_b_c"]

theorem groundRoadPlan_actions (prune : Bool) :
    ∀ i ∈ groundRoadPlan, ∃ a ∈ (groundRoads prune).problem.actions, i = .ground a.name := by
  revert prune
  decide +kernel

end Examples

end LiftedPlanning
