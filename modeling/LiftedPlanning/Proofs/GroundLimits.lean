import LiftedPlanning.Proofs.GroundFailures

/-!
# Limits and cancellation of grounding

A limit on ground actions cuts grounding off and has no other say in it. As long as no more ground
actions are made than the limit allows, the limited run goes as the one without a limit; with the
first ground action beyond it, the limited run is refused (`Grounder.CutsOff`). So whether a problem
can be grounded under a limit depends only on how many ground actions it has.

A grounder that was told to stop notices so with the first argument list that fits an action,
before it looks at what becomes of it.
-/

namespace LiftedPlanning.Grounder

def withLimit (G : Grounder) (limit : Option ℕ) : Grounder :=
  { G with options := { G.options with maxGroundActions := limit } }

def stopped (G : Grounder) : Grounder := { G with cancelled := true }

variable {G : Grounder} {P : Problem} {facts : Option StaticFacts} {a : Action} {m : ℕ}

/-! ## Runs under a limit -/

/-- A grounding if its ground actions stay within a limit. -/
def capped (P : Problem) (m : ℕ) (g : Grounding) : Except GroundingError Grounding :=
  if m < g.made.length then .error (.tooManyGroundActions P.name m) else .ok g

theorem capped_of_le {g : Grounding} (h : g.made.length ≤ m) : capped P m g = .ok g :=
  if_neg (Nat.not_lt.mpr h)

theorem capped_of_lt {g : Grounding} (h : m < g.made.length) :
    capped P m g = .error (.tooManyGroundActions P.name m) :=
  if_pos h

/-- What the first run makes of a grounding adds to it, and from a grounding within the limit the
second run makes the same, capped. -/
def CutsOff (P : Problem) (m : ℕ) (g : Grounding) (x y : Except GroundingError Grounding) : Prop :=
  ∀ g', x = .ok g' →
    g.made.length ≤ g'.made.length ∧ (g.made.length ≤ m → y = capped P m g')

theorem CutsOff.foldlM {α : Type} {f f' : Grounding → α → Except GroundingError Grounding}
    (h : ∀ g x, CutsOff P m g (f g x) (f' g x)) (xs : List α) (g : Grounding) :
    CutsOff P m g (xs.foldlM f g) (xs.foldlM f' g) := by
  induction xs generalizing g with
  | nil =>
    rintro _ ⟨⟩
    exact ⟨Nat.le_refl _, fun hg => (capped_of_le hg).symm⟩
  | cons x xs ih =>
    intro g' hg'
    rw [List.foldlM_cons] at hg' ⊢
    obtain ⟨g₁, hx, hxs⟩ := bind_eq_ok.mp hg'
    obtain ⟨hle, hcapped⟩ := h g x g₁ hx
    obtain ⟨hle', hcapped'⟩ := ih g₁ g' hxs
    refine ⟨Nat.le_trans hle hle', fun hg => ?_⟩
    rw [hcapped hg]
    rcases Nat.lt_or_ge m g₁.made.length with hlt | hge
    · -- beyond the limit there is no way back
      rw [capped_of_lt hlt, capped_of_lt (Nat.lt_of_lt_of_le hlt hle')]
      rfl
    · rw [capped_of_le hge]
      exact hcapped' hge

theorem length_of_emit {V : Vocabulary} {g g' : Grounding} {args : List String} {pre : List Expr}
    {eff : List Effect} (h : emit V g a args pre eff = .ok g') :
    g'.made.length = g.made.length + 1 := by
  obtain ⟨_, _, ⟨⟩⟩ := bind_eq_ok.mp h
  rfl

theorem groundArgs_cutsOff (hlimit : G.options.maxGroundActions = none) (P : Problem)
    (facts : Option StaticFacts) (a : Action) (m : ℕ) (g : Grounding) (args : List String) :
    CutsOff P m g (G.groundArgs P facts a g args)
      ((G.withLimit (some m)).groundArgs P facts a g args) := by
  intro g' h
  have hcancelled : (G.withLimit (some m)).cancelled = G.cancelled := rfl
  have hoptions : (G.withLimit (some m)).options.maxGroundActions = some m := rfl
  unfold groundArgs at h ⊢
  rw [hcancelled, hoptions]
  rw [hlimit] at h
  split at h
  · cases h
  · next hrun =>
    rw [if_neg hrun]
    obtain ⟨r, hr, h⟩ := bind_eq_ok.mp h
    dsimp only
    rw [hr]
    cases r with
    | none =>
      cases h
      exact ⟨Nat.le_refl _, fun hg => (capped_of_le hg).symm⟩
    | some r =>
      have hlength := length_of_emit (mapError_eq_ok.mp h)
      refine ⟨hlength ▸ Nat.le_succ _, fun hg => ?_⟩
      -- the limit is looked at before the ground action is made
      rcases Nat.lt_or_eq_of_le hg with hlt | rfl
      · rw [capped_of_le (hlength ▸ hlt)]
        have hroom : (some m).filter (fun n => n ≤ g.names.size) = none := by
          rw [g.size_names]
          simpa using hlt
        rw [hroom]
        exact h
      · rw [capped_of_lt (hlength ▸ Nat.lt_succ_self _)]
        have hfull : (some g.made.length).filter (fun n => n ≤ g.names.size) =
            some g.made.length := by
          rw [g.size_names]
          simp
        rw [hfull]
        rfl

theorem groundSchema_cutsOff (hlimit : G.options.maxGroundActions = none) (P : Problem)
    (facts : Option StaticFacts) (m : ℕ) (g : Grounding) (a : Action) :
    CutsOff P m g (G.groundSchema P facts g a)
      ((G.withLimit (some m)).groundSchema P facts g a) := by
  intro g' h
  obtain ⟨ds, hds, h⟩ := bind_eq_ok.mp h
  unfold groundSchema
  rw [hds]
  rw [foldTuples_eq] at h
  have hargs := CutsOff.foldlM (groundArgs_cutsOff hlimit P facts a m) (tuples ds) g g' h
  rwa [← foldTuples_eq] at hargs

/-- The ground problem has as many actions as were made. -/
theorem length_actions {made : List Grounded} {Q : Problem} (ms : List QualityMetric)
    (h : P.goals.foldlM (groundGoal P facts) (groundBase P made) = .ok Q) :
    (ms.foldl Problem.addMetric Q).actions.length = made.length := by
  obtain ⟨_, _, rfl⟩ := groundGoals_residue h
  rw [foldl_addMetric]
  exact List.length_map _

theorem groundProblem_withLimit (hlimit : G.options.maxGroundActions = none) {R : CompilerResult}
    (h : G.groundProblem P = .ok R) (m : ℕ) :
    (G.withLimit (some m)).groundProblem P =
      if m < R.problem.actions.length then .error (.tooManyGroundActions P.name m) else .ok R := by
  obtain ⟨g, hactions, hrest⟩ := bind_eq_ok.mp h
  obtain ⟨Q, hgoals, hmetrics⟩ := bind_eq_ok.mp hrest
  obtain ⟨ms, _, ⟨⟩⟩ := bind_eq_ok.mp hmetrics
  obtain ⟨_, hcapped⟩ :=
    CutsOff.foldlM (groundSchema_cutsOff hlimit P (G.factsOf P) m) P.actions .empty g hactions
  have hlength := length_actions ms (mapError_eq_ok.mp hgoals)
  rw [List.length_reverse] at hlength
  rw [hlength]
  unfold groundProblem
  show (P.actions.foldlM ((G.withLimit (some m)).groundSchema P (G.factsOf P)) .empty >>= _) = _
  rw [hcapped (Nat.zero_le m), capped]
  split
  · rfl
  · exact hrest

/-! ## Cancellation -/

/-- A grounder that was told to stop does so with the first argument list that fits. -/
theorem groundSchema_of_accepted (hP : P.Built) (ha : a ∈ P.actions) (hstop : G.cancelled = true)
    {args : List String} (hargs : P.checkArguments a args = .ok ()) (g : Grounding) :
    G.groundSchema P facts g a = .error .cancelled := by
  obtain ⟨ds, hds⟩ := Vocabulary.domains_of_declares (hP.wellTyped.actions a ha).parameters
  have hmem := (Vocabulary.mem_tuples_domains hP.namesDistinct.objects hds).mpr hargs
  obtain ⟨first, rest, htuples⟩ := List.exists_cons_of_ne_nil (List.ne_nil_of_mem hmem)
  unfold groundSchema
  rw [hds]
  show foldTuples _ g ds = _
  rw [foldTuples_eq, htuples, List.foldlM_cons, groundArgs, if_pos hstop]
  rfl

/-- Nothing is made of an action that no argument list fits, told to stop or not. -/
theorem groundSchema_of_none_accepted (hP : P.Built) (ha : a ∈ P.actions)
    (hnone : ¬ ∃ args, P.checkArguments a args = .ok ()) (g : Grounding) :
    G.groundSchema P facts g a = .ok g := by
  obtain ⟨ds, hds⟩ := Vocabulary.domains_of_declares (hP.wellTyped.actions a ha).parameters
  have htuples : tuples ds = [] := by
    refine List.eq_nil_iff_forall_not_mem.mpr fun args hargs => hnone ⟨args, ?_⟩
    exact (Vocabulary.mem_tuples_domains hP.namesDistinct.objects hds).mp hargs
  unfold groundSchema
  rw [hds]
  show foldTuples _ g ds = _
  rw [foldTuples_eq, htuples]
  rfl

theorem groundSchemas_of_cancelled (hP : P.Built) (hstop : G.cancelled = true) {as : List Action}
    (has : ∀ a ∈ as, a ∈ P.actions) (g : Grounding) :
    as.foldlM (G.groundSchema P facts) g = .error .cancelled ↔
      ∃ a ∈ as, ∃ args, P.checkArguments a args = .ok () := by
  induction as with
  | nil => exact ⟨nofun, nofun⟩
  | cons a as ih =>
    obtain ⟨ha, has⟩ := List.forall_mem_cons.mp has
    rw [List.foldlM_cons, List.exists_mem_cons_iff]
    by_cases haccepted : ∃ args, P.checkArguments a args = .ok ()
    · obtain ⟨args, hargs⟩ := haccepted
      rw [groundSchema_of_accepted hP ha hstop hargs]
      exact ⟨fun _ => .inl ⟨args, hargs⟩, fun _ => rfl⟩
    · rw [groundSchema_of_none_accepted hP ha haccepted]
      exact (ih has).trans (or_iff_right haccepted).symm

/-- Only while actions are grounded does a grounder notice that it was told to stop. -/
theorem groundProblem_eq_cancelled_iff :
    G.groundProblem P = .error .cancelled ↔
      P.actions.foldlM (G.groundSchema P (G.factsOf P)) .empty = .error .cancelled := by
  unfold groundProblem
  constructor
  · intro h
    rcases bind_eq_error.mp h with h | ⟨g, _, h⟩
    · exact h
    · rcases bind_eq_error.mp h with h | ⟨Q, _, h⟩
      · obtain ⟨_, _, ⟨⟩⟩ := mapError_eq_error.mp h
      · rcases bind_eq_error.mp h with h | ⟨ms, _, ⟨⟩⟩
        obtain ⟨_, _, ⟨⟩⟩ := mapError_eq_error.mp h
  · exact fun h => bind_eq_error.mpr (.inl h)

open Examples

/-- What a grounder without a limit makes of a problem, it also makes of it under any limit that its
ground actions do not exceed; under a lower limit they are too many. If it was told to stop, then it
stops exactly if some argument list fits an action, whatever the limit is and whether anything would
come of that argument list. -/
theorem ground_withLimit (hP : P.Built) (hlimit : G.options.maxGroundActions = none)
    {R : CompilerResult} (h : G.ground P = .ok R) :
    (∀ m, (G.withLimit (some m)).ground P =
      if R.problem.actions.length > m then .error (.tooManyGroundActions P.name m) else .ok R) ∧
      ∀ limit, (G.withLimit limit).stopped.ground P = .error .cancelled ↔
        ∃ a ∈ P.actions, ∃ args, P.checkArguments a args = .ok () := by
  unfold ground at h
  split at h
  · next hfeatures =>
    have hground : ∀ H : Grounder, H.supported = G.supported →
        H.ground P = H.groundProblem P := by
      intro H hsame
      have hmissing : H.capabilities.missing P.kind = [] := by
        rw [capabilities, hsame]
        exact hfeatures
      rw [ground, hmissing]
    refine ⟨fun m => ?_, fun limit => ?_⟩
    · rw [hground (G.withLimit (some m)) rfl]
      exact groundProblem_withLimit hlimit h m
    · rw [hground (G.withLimit limit).stopped rfl, groundProblem_eq_cancelled_iff]
      exact groundSchemas_of_cancelled hP rfl (fun _ => id) .empty
  · cases h

theorem ground_withLimit_roads :
    ((grounder true).withLimit (some 2)).ground roads = .error (.tooManyGroundActions "roads" 2) ∧
      ((grounder true).withLimit (some 3)).ground roads = .ok (groundRoads true) ∧
      ((grounder true).withLimit (some 0)).stopped.ground roads = .error .cancelled := by
  have hlength : (groundRoads true).problem.actions.length = 3 := by decide +kernel
  have hfits : ∃ a ∈ roads.actions, ∃ args, roads.checkArguments a args = .ok () := by
    refine ⟨_, List.mem_cons_self, ["a", "a"], ?_⟩
    decide +kernel
  obtain ⟨hlimits, hstops⟩ := ground_withLimit roads_built rfl (ground_roads true)
  refine ⟨?_, ?_, (hstops (some 0)).mpr hfits⟩
  · rw [hlimits, hlength]
    rfl
  · rw [hlimits, hlength]
    rfl

end LiftedPlanning.Grounder
