import LiftedPlanning.Proofs.StepOrder

/-!
# Names of ground actions

A ground action is named after the step it stands for: the lifted action and its arguments, joined.
Different steps can come to the same name, and a name with a number can come up as the joined name
of a later step, so names are given in turn (`NamedInTurn`). Each is the first candidate that no
ground action made before has.

The names are distinct all the same, and so are the steps. This makes the table of a grounding a
bijection (`CompilerResult.Corresponds`), in which the order of the ground actions is the order of
declaration of the steps.
-/

namespace LiftedPlanning

open FreshName

/-- The name of a step as long as nothing else has it. -/
def ActionInstance.joined (i : ActionInstance) : String := "_".intercalate (i.action :: i.args)

/-! ## Names given in turn -/

/-- Ground actions, newest first. Each has the first candidate for the step it stands for that none
of those made before has. -/
inductive NamedInTurn : List Grounded → Prop where
  | nil : NamedInTurn []
  | cons {g : Grounded} {gs : List Grounded} {k : ℕ} : NamedInTurn gs →
      g.name = candidate g.lifted.joined k →
      (∀ j < k, candidate g.lifted.joined j ∈ gs.map Grounded.name) → NamedInTurn (g :: gs)

theorem NamedInTurn.of_append {gs : List Grounded} : ∀ {newer : List Grounded},
    NamedInTurn (newer ++ gs) → NamedInTurn gs
  | [], h => h
  | _ :: _, .cons h _ _ => h.of_append

namespace Grounder

variable {G : Grounder} {P : Problem} {facts : Option StaticFacts} {g g' : Grounding}

theorem groundArgs_named {a : Action} {args : List String} (hg : NamedInTurn g.made)
    (h : G.groundArgs P facts a g args = .ok g') : NamedInTurn g'.made := by
  rcases groundArgs_cases h with ⟨_, rfl⟩ | ⟨x, hlifted, _, hname, _, hmade⟩
  · exact hg
  · obtain ⟨k, _, hfresh, _, hpassed⟩ := fresh_eq_candidate g.names ("_".intercalate (a.name :: args))
    rw [hmade]
    refine .cons hg (k := k) ?_ ?_
    · rw [hname, hfresh, hlifted]
      rfl
    · intro j hj
      rw [hlifted]
      exact (g.mem_names _).mp (hpassed j hj)

theorem groundSchema_named {a : Action} (hg : NamedInTurn g.made)
    (h : G.groundSchema P facts g a = .ok g') : NamedInTurn g'.made := by
  obtain ⟨ds, _, h⟩ := bind_eq_ok.mp h
  rw [foldTuples_eq] at h
  exact foldlM_keeps (I := fun g => NamedInTurn g.made) h hg fun _ hg _ _ _ hargs =>
    groundArgs_named hg hargs

/-- The ground actions of a grounding, newest first, are named in turn. -/
theorem named_of_ground {R : CompilerResult} (h : G.ground P = .ok R) :
    ∃ gs, NamedInTurn gs ∧ R.names = namesOf gs.reverse := by
  unfold ground at h
  split at h
  · obtain ⟨grounding, hactions, h⟩ := bind_eq_ok.mp h
    obtain ⟨Q, _, h⟩ := bind_eq_ok.mp h
    obtain ⟨ms, _, ⟨⟩⟩ := bind_eq_ok.mp h
    refine ⟨grounding.made, ?_, rfl⟩
    exact foldlM_keeps (I := fun g => NamedInTurn g.made) hactions .nil fun _ hg _ _ _ hschema =>
      groundSchema_named hg hschema
  · cases h

end Grounder

/-- In a table of ground actions that were named in turn, every name is the first candidate that no
entry before it has. -/
theorem NamedInTurn.entry {gs : List Grounded} (h : NamedInTurn gs)
    {earlier later : List (String × ActionInstance)} {e : String × ActionInstance}
    (hentries : (Grounder.namesOf gs.reverse).entries = earlier ++ e :: later) :
    ∃ k, e.1 = candidate e.2.joined k ∧
      ∀ j < k, candidate e.2.joined j ∈ earlier.map Prod.fst := by
  obtain ⟨older, rest, hgs, rfl, hrest⟩ := List.map_eq_append_iff.mp hentries
  obtain ⟨g, newer, rfl, rfl, _⟩ := List.map_eq_cons_iff.mp hrest
  have hgs : gs = newer.reverse ++ g :: older.reverse := by
    rw [← List.reverse_reverse gs, hgs]
    simp
  rw [hgs] at h
  cases h.of_append with
  | @cons _ _ k _ hname hpassed =>
    refine ⟨k, hname, ?_⟩
    intro j hj
    rw [List.map_map]
    simpa using hpassed j hj

/-! ## The table of a grounding -/

/-- Ground actions and the steps they stand for correspond to each other, one to one and in order. -/
structure CompilerResult.Corresponds (R : CompilerResult) (P : Problem) : Prop where
  /-- Ground actions have distinct names. -/
  distinct : (R.problem.actions.map Action.name).Nodup
  /-- The table has the names of the ground actions and no others. -/
  contains_iff : ∀ n, R.names.contains n = true ↔ n ∈ R.problem.actions.map Action.name
  /-- A ground action stands for a step that is accepted in plans, after which it is named. -/
  step : ∀ n ∈ R.problem.actions.map Action.name,
    ∃ a ∈ P.actions, ∃ args, P.checkArguments a args = .ok () ∧
      R.mapBack (.ground n) = .ok ⟨a.name, args⟩ ∧
      R.names.groundName? ⟨a.name, args⟩ = some n ∧
      (n = "_".intercalate (a.name :: args) ∨
        ∃ k > 0, n = "_".intercalate (a.name :: args) ++ "_" ++ toString k)
  /-- The way from a name to its step and the way from a step to its name are inverse. -/
  inverse : ∀ n i, R.mapBack (.ground n) = .ok i ↔ R.names.groundName? i = some n
  /-- Different names stand for different steps. -/
  injective : ∀ m n i, R.mapBack (.ground m) = .ok i → R.mapBack (.ground n) = .ok i → m = n
  /-- There is no way back from other names, nor from instances with arguments. -/
  unknown : ∀ i, R.names.contains i.action = false ∨ i.args ≠ [] →
    R.mapBack i = .error (.unknownInstance i)
  /-- A name has a number only as far as the names before it make that necessary. -/
  inTurn : ∀ earlier n i later, R.names.entries = earlier ++ (n, i) :: later →
    ∃ k, n = candidate i.joined k ∧ ∀ j < k, candidate i.joined j ∈ earlier.map Prod.fst
  /-- The ground actions come in the order of declaration of their steps. -/
  ordered : ∃ steps, R.mapBackPlan (R.problem.actions.map fun a => .ground a.name) = .ok steps ∧
    steps.Pairwise fun i j => P.place i < P.place j

theorem CompilerResult.mapBack_unknown {R : CompilerResult} {i : ActionInstance}
    (hi : R.names.contains i.action = false ∨ i.args ≠ []) :
    R.mapBack i = .error (.unknownInstance i) := by
  have hnone : R.names.lifted? i = none := by
    unfold GroundNames.lifted?
    by_cases hargs : i.args.isEmpty = true
    · have hcontains := hi.resolve_right (not_not.mpr (List.isEmpty_iff.mp hargs))
      rw [if_pos hargs, Option.map_eq_none_iff, List.find?_eq_none]
      exact List.any_eq_false.mp hcontains
    · rw [if_neg hargs]
  rw [mapBack, hnone]

namespace Grounder.Makes

variable {G : Grounder} {P : Problem} {R : CompilerResult} {cs : List Candidate}
  {made : List Grounded} {g : Grounded}

theorem names_ground (h : G.Makes P R cs made) :
    R.problem.actions.map Action.name = made.map Grounded.name := by
  rw [h.actions, List.map_map]
  rfl

theorem contains_iff (h : G.Makes P R cs made) (n : String) :
    R.names.contains n = true ↔ n ∈ R.problem.actions.map Action.name := by
  rw [h.names_ground, h.names]
  simp [GroundNames.contains, namesOf]

/-- The steps that ground actions stand for are among the candidates, in the same order. -/
theorem lifted_ordered (h : G.Makes P R cs made) (hP : P.NamesDistinct) :
    (made.map Grounded.lifted).Pairwise fun i j => P.place i < P.place j := by
  have hcandidates := (candidates_ordered hP h.candidates).sublist h.kept.sublist
  rw [List.pairwise_map] at hcandidates ⊢
  exact hcandidates

end Grounder.Makes

namespace Examples

/-- Going from `a` to `b`, and `go_a` at `b`, both come to the name `go_a_b`, which the second of
them gets with a number. That is the name of the last action, which gets a number in turn. -/
def namesakes : Problem :=
  let stop (x : String) : Parameter := ⟨x, "stop"⟩
  .build "namesakes" [
    .addType "stop" none,
    .addObjects ["a", "b"] "stop",
    .addAction ⟨"go", [stop "x", stop "y"], [], []⟩,
    .addAction ⟨"go_a", [stop "x"], [], []⟩,
    .addAction ⟨"go_a_b_1", [], [], []⟩]

theorem namesakes_built : namesakes.Built := ⟨_, _, rfl⟩

end Examples

namespace Grounder

open Examples

variable {G : Grounder} {P : Problem} {R : CompilerResult}

/-- Grounding a built problem makes its ground actions and the steps they stand for correspond, and
the search for a name always ends: at the first candidate that is not in use, which comes after no
more candidates than there are names in use. -/
theorem ground_corresponds (hP : P.Built) (h : G.ground P = .ok R) :
    R.Corresponds P ∧ ∀ (used : Std.TreeSet String) (base : String),
      ∃ k ≤ used.size, fresh used base = candidate base k ∧ candidate base k ∉ used ∧
        ∀ j < k, candidate base j ∈ used := by
  obtain ⟨cs, made, hmakes⟩ := makes_of_ground h
  have hnames := hP.namesDistinct
  obtain ⟨gs, hgs, htable⟩ := named_of_ground h
  have hinTurn : ∀ earlier n i later, R.names.entries = earlier ++ (n, i) :: later →
      ∃ k, n = candidate i.joined k ∧ ∀ j < k, candidate i.joined j ∈ earlier.map Prod.fst := by
    intro earlier n i later hentries
    rw [htable] at hentries
    exact hgs.entry hentries
  refine ⟨?_, fresh_eq_candidate⟩
  exact {
    distinct := hmakes.names_ground ▸ hmakes.distinct
    contains_iff := hmakes.contains_iff
    step := by
      intro n hn
      rw [hmakes.names_ground] at hn
      obtain ⟨g, hg, rfl⟩ := List.mem_map.mp hn
      refine ⟨g.origin, hmakes.origin_mem hnames hg, g.args, hmakes.checkArguments_lifted hnames hg,
        hmakes.mapBack_step hg, hmakes.groundName?_lifted hnames hg, ?_⟩
      obtain ⟨earlier, later, hentries⟩ := List.append_of_mem (hmakes.mem_entries hg)
      obtain ⟨k, hname, _⟩ := hinTurn _ _ _ _ hentries
      cases k with
      | zero => exact .inl hname
      | succ k => exact .inr ⟨k + 1, Nat.succ_pos k, hname⟩
    inverse := fun _ _ => hmakes.mapBack_eq_ok_iff.trans (hmakes.groundName?_eq_some_iff hnames).symm
    injective := by
      intro m n i hm hn
      rw [hmakes.mapBack_eq_ok_iff, ← hmakes.groundName?_eq_some_iff hnames] at hm hn
      exact Option.some.inj (hm.symm.trans hn)
    unknown := fun _ => CompilerResult.mapBack_unknown
    inTurn := hinTurn
    ordered := by
      refine ⟨made.map Grounded.lifted, ?_, hmakes.lifted_ordered hnames⟩
      have hsteps : (R.problem.actions.map fun a => ActionInstance.ground a.name) =
          made.map Grounded.step := by
        rw [hmakes.actions, List.map_map]
        rfl
      rw [hsteps]
      exact hmakes.mapBackPlan_steps fun _ => id }

theorem ground_corresponds_namesakes :
    ∃ R, (grounder true).ground namesakes = .ok R ∧ R.Corresponds namesakes ∧
      R.problem.actions.map Action.name =
        ["go_a_a", "go_a_b", "go_b_a", "go_b_b", "go_a_a_1", "go_a_b_1", "go_a_b_1_1"] := by
  have hnames : ((grounder true).ground namesakes).map
      (fun R => R.problem.actions.map Action.name) =
        .ok ["go_a_a", "go_a_b", "go_b_a", "go_b_b", "go_a_a_1", "go_a_b_1", "go_a_b_1_1"] := by
    decide +kernel
  cases hR : (grounder true).ground namesakes with
  | error e =>
    rw [hR] at hnames
    cases hnames
  | ok R =>
    rw [hR] at hnames
    exact ⟨R, rfl, (ground_corresponds namesakes_built hR).1, Except.ok.inj hnames⟩

end Grounder

end LiftedPlanning
