import LiftedPlanning.Grounding.Grounder
import LiftedPlanning.Transition
import LiftedPlanning.Proofs.Expansion
import LiftedPlanning.Proofs.Simplification

/-!
# Ground actions behave like their lifted instances

A ground action is read without a binding, the action it comes from under the binding of its
parameters. In a state in which the facts used for pruning hold, the ground reading follows the
lifted one: expressions keep their values, conditions fail at the same place, effects make the
same changes. Without pruning it follows exactly.
-/

namespace LiftedPlanning.Grounder

variable {V : Vocabulary} {facts : Option StaticFacts} {s : State} {b : Binding}

/-- If static facts are used, they are facts of the vocabulary and hold in the state. -/
def FactsHold (V : Vocabulary) (facts : Option StaticFacts) (s : State) : Prop :=
  ∀ F, facts = some F → F.vocabulary = V ∧ F.HoldIn s

/-! ## Expressions -/

theorem groundExpr_eq_ok {e e' : Expr} (h : groundExpr V facts b e = .ok e') :
    ∃ d, V.expand (e.substitute b) = .ok d ∧ fold facts d = e' := by
  obtain ⟨d, hd, ⟨⟩⟩ := bind_eq_ok.mp h
  exact ⟨d, hd, rfl⟩

theorem fold_follows (hs : FactsHold V facts s) (e : Expr) :
    V.Evaluates (facts = none) s b b e (fold facts e) := by
  cases facts with
  | none => exact .refl _
  | some F =>
    obtain ⟨hV, hF⟩ := hs F rfl
    have hfold : V.Evaluates False s b b e (F.simplify e) := hV ▸ F.simplify_follows hF b e
    exact .of_inexact (Option.some_ne_none F) hfold

/-- Substitution, expansion and simplification one after the other. -/
theorem groundExpr_follows {e e' : Expr} (h : groundExpr V facts b e = .ok e')
    (hs : FactsHold V facts s) : V.Evaluates (facts = none) s b .empty e e' := by
  obtain ⟨d, hd, rfl⟩ := groundExpr_eq_ok h
  have hsubst : V.Evaluates (facts = none) s b .empty e (e.substitute b) := .substitute_empty b e
  have hexpand : V.Evaluates (facts = none) s .empty .empty (e.substitute b) d := .expand hd .empty
  exact (hsubst.trans hexpand).trans (fold_follows hs d)

/-! ## Conditions -/

/-- The ground conditions that remain of a list of conditions: with pruning, one that folded to
true may be dropped. -/
inductive Residue (V : Vocabulary) (facts : Option StaticFacts) (b : Binding) :
    List Expr → List Expr → Prop where
  | nil : Residue V facts b [] []
  | drop {e : Expr} {es es' : List Expr} : facts.isSome →
      groundExpr V facts b e = .ok (.bool true) → Residue V facts b es es' →
      Residue V facts b (e :: es) es'
  | keep {e e' : Expr} {es es' : List Expr} : groundExpr V facts b e = .ok e' →
      Residue V facts b es es' → Residue V facts b (e :: es) (e' :: es')

theorem Residue.exists_of_mem {es es' : List Expr} (h : Residue V facts b es es') {e' : Expr}
    (he' : e' ∈ es') : ∃ e ∈ es, groundExpr V facts b e = .ok e' := by
  induction h with
  | nil => cases he'
  | drop _ _ _ ih =>
    obtain ⟨e, he, hground⟩ := ih he'
    exact ⟨e, List.mem_cons_of_mem _ he, hground⟩
  | keep hground _ ih =>
    rcases List.mem_cons.mp he' with rfl | he'
    · exact ⟨_, List.mem_cons_self, hground⟩
    · obtain ⟨e, he, hground⟩ := ih he'
      exact ⟨e, List.mem_cons_of_mem _ he, hground⟩

/-- A condition that was dropped cannot be the first false one. -/
theorem firstFalse_drop {e : Expr} {es : List Expr} {r : Option Expr}
    (he : groundExpr V facts b e = .ok (.bool true)) (hs : FactsHold V facts s)
    (h : V.firstFalse s b (e :: es) = .ok r) : V.firstFalse s b es = .ok r := by
  obtain ⟨p, hp, h⟩ := bind_eq_ok.mp h
  obtain ⟨_, ⟨⟩, rfl⟩ := ((groundExpr_follows he hs).holds).of_ok hp
  exact h

/-- The first false ground condition is the grounding of the first false lifted one. -/
theorem Residue.firstFalse_follows {es es' : List Expr} (h : Residue V facts b es es')
    (hs : FactsHold V facts s) :
    Follows (facts = none) (Option.Rel fun c c' => groundExpr V facts b c = .ok c')
      (V.firstFalse s b es) (V.firstFalse s .empty es') := by
  induction h with
  | nil => exact Option.Rel.none
  | drop hfacts he _ ih =>
    -- only a pruned grounding drops conditions, so failures of the dropped one need no counterpart
    refine .of_inexact (Option.isSome_iff_ne_none.mp hfacts) (Follows.inexact_iff.mpr ?_)
    intro r hr
    exact ih.of_ok (firstFalse_drop he hs hr)
  | keep he _ ih =>
    rw [Vocabulary.firstFalse, Vocabulary.firstFalse]
    refine (groundExpr_follows he hs).holds.bind_same fun p => ?_
    cases p with
    | true => exact ih
    | false => exact Option.Rel.some he

/-! ## Preconditions -/

theorem groundPreconditions_residue {es es' : List Expr}
    (h : groundPreconditions V facts b es = .ok (some es')) : Residue V facts b es es' := by
  induction es generalizing es' with
  | nil =>
    cases h
    exact .nil
  | cons e es ih =>
    rw [groundPreconditions] at h
    obtain ⟨d, hd, h⟩ := bind_eq_ok.mp h
    split at h
    · cases h
    · obtain ⟨rest, hrest, h⟩ := bind_eq_ok.mp h
      split at h
      · next htrue =>
        cases h
        obtain ⟨hfacts, hdtrue⟩ := Bool.and_eq_true_iff.mp htrue
        obtain rfl : d = .bool true := by simpa using hdtrue
        exact .drop hfacts hd (ih hrest)
      · obtain ⟨kept, rfl, rfl⟩ := Option.map_eq_some_iff.mp (Except.ok.inj h)
        exact .keep hd (ih hrest)

/-- Where the preconditions were pruned, one of them folded to false, so they do not all hold. -/
theorem groundPreconditions_none {es : List Expr} (h : groundPreconditions V facts b es = .ok none)
    (hs : FactsHold V facts s) : V.firstFalse s b es ≠ .ok none := by
  induction es with
  | nil => cases h
  | cons e es ih =>
    rw [groundPreconditions] at h
    obtain ⟨d, hd, h⟩ := bind_eq_ok.mp h
    intro hnone
    obtain ⟨p, hp, hrest⟩ := bind_eq_ok.mp hnone
    cases p with
    | false => cases hrest
    | true =>
      split at h
      · next hfalse =>
        obtain ⟨_, hdfalse⟩ := Bool.and_eq_true_iff.mp hfalse
        obtain rfl : d = .bool false := by simpa using hdfalse
        -- the ground condition is false, the lifted one would have to be true
        obtain ⟨_, ⟨⟩, hp⟩ := (groundExpr_follows hd hs).holds.of_ok hp
        cases hp
      · obtain ⟨rest, hes, h⟩ := bind_eq_ok.mp h
        have hrestnone : rest = none := by
          split at h
          · exact Except.ok.inj h
          · exact Option.map_eq_none_iff.mp (Except.ok.inj h)
        subst hrestnone
        exact ih hes hrest

/-! ## Effects -/

theorem substituteArgs_follows {exact : Prop} (b : Binding) (es : List Expr) :
    Follows exact (· = ·) (V.evaluateArgs s b es)
      (V.evaluateArgs s .empty (es.map (Expr.substitute b))) :=
  Vocabulary.Evaluates.args (forall₂_map_right fun e _ => .substitute_empty b e)

/-- A ground effect is made of the parts of a lifted one; its arguments are only substituted. -/
structure GroundEffect (V : Vocabulary) (facts : Option StaticFacts) (b : Binding)
    (e e' : Effect) : Prop where
  target : e'.target = e.target.substitute b
  condition : groundExpr V facts b e.condition = .ok e'.condition
  value : groundExpr V facts b e.value = .ok e'.value

theorem groundEffects_exists_kind_of_mem {es es' : List Effect}
    (h : groundEffects V facts b es = .ok es') {e' : Effect} (he' : e' ∈ es') :
    ∃ e ∈ es, GroundEffect V facts b e e' ∧ e'.kind = e.kind := by
  induction es generalizing es' with
  | nil =>
    cases h
    cases he'
  | cons e es ih =>
    rw [groundEffects] at h
    obtain ⟨c, hc, h⟩ := bind_eq_ok.mp h
    split at h
    · obtain ⟨d, hd, hground⟩ := ih h he'
      exact ⟨d, List.mem_cons_of_mem _ hd, hground⟩
    · obtain ⟨value, hvalue, h⟩ := bind_eq_ok.mp h
      obtain ⟨rest, hrest, ⟨⟩⟩ := bind_eq_ok.mp h
      rcases List.mem_cons.mp he' with rfl | he'
      · have htarget : Expr.fluent e.fluent (e.args.map (Expr.substitute b)) =
            e.target.substitute b := by
          rw [Effect.target, Expr.substitute, Expr.substituteAll_eq]
        exact ⟨e, List.mem_cons_self, ⟨htarget, hc, hvalue⟩, rfl⟩
      · obtain ⟨d, hd, hground⟩ := ih hrest he'
        exact ⟨d, List.mem_cons_of_mem _ hd, hground⟩

theorem groundEffects_exists_of_mem {es es' : List Effect}
    (h : groundEffects V facts b es = .ok es') {e' : Effect} (he' : e' ∈ es') :
    ∃ e ∈ es, GroundEffect V facts b e e' := by
  obtain ⟨e, he, hground, _⟩ := groundEffects_exists_kind_of_mem h he'
  exact ⟨e, he, hground⟩

theorem updates_cons_drop {e : Effect} {es : List Effect} {us : List Update}
    (he : groundExpr V facts b e.condition = .ok (.bool false)) (hs : FactsHold V facts s)
    (h : V.updates s b (e :: es) = .ok us) : V.updates s b es = .ok us := by
  rw [Vocabulary.updates] at h
  obtain ⟨p, hp, h⟩ := bind_eq_ok.mp h
  obtain ⟨_, ⟨⟩, rfl⟩ := (groundExpr_follows he hs).holds.of_ok hp
  exact h

theorem updates_follows {es es' : List Effect} (h : groundEffects V facts b es = .ok es')
    (hs : FactsHold V facts s) :
    Follows (facts = none) (· = ·) (V.updates s b es) (V.updates s .empty es') := by
  induction es generalizing es' with
  | nil =>
    cases h
    exact .refl _
  | cons e es ih =>
    rw [groundEffects] at h
    obtain ⟨c, hc, h⟩ := bind_eq_ok.mp h
    split at h
    · next hfalse =>
      obtain ⟨hfacts, hcfalse⟩ := Bool.and_eq_true_iff.mp hfalse
      obtain rfl : c = .bool false := by simpa using hcfalse
      refine .of_inexact (Option.isSome_iff_ne_none.mp hfacts) (Follows.inexact_iff.mpr ?_)
      intro us hus
      exact (ih h).of_ok (updates_cons_drop hc hs hus)
    · obtain ⟨value, hvalue, h⟩ := bind_eq_ok.mp h
      obtain ⟨rest, hrest, ⟨⟩⟩ := bind_eq_ok.mp h
      rw [Vocabulary.updates, Vocabulary.updates]
      refine (groundExpr_follows hc hs).holds.bind_same fun p => ?_
      cases p with
      | false => exact ih hrest
      | true =>
        have htarget : Follows (facts = none) (· = ·) (V.instanceAt s b e.fluent e.args)
            (V.instanceAt s .empty e.fluent (e.args.map (Expr.substitute b))) :=
          (substituteArgs_follows b e.args).bind_same fun os => .refl _
        refine htarget.bind_same fun i => ?_
        refine (groundExpr_follows hvalue hs).bind_same fun v => ?_
        exact (ih hrest).bind_same fun us => .refl _

/-! ## Actions -/

/-- A ground action is what grounding makes of its lifted action under its arguments. -/
structure Stands (V : Vocabulary) (facts : Option StaticFacts) (g : Grounded) : Prop where
  parameters : g.action.parameters = []
  preconditions : Residue V facts g.binding g.origin.preconditions g.action.preconditions
  effects : groundEffects V facts g.binding g.origin.effects = .ok g.action.effects

theorem groundAction_eq_some {a : Action} {pre : List Expr} {eff : List Effect}
    (h : groundAction V facts b a = .ok (some (pre, eff))) :
    Residue V facts b a.preconditions pre ∧ groundEffects V facts b a.effects = .ok eff := by
  obtain ⟨r, hr, h⟩ := bind_eq_ok.mp h
  cases r with
  | none => cases h
  | some es =>
    obtain ⟨eff', heff, ⟨⟩⟩ := bind_eq_ok.mp h
    exact ⟨groundPreconditions_residue hr, heff⟩

theorem groundAction_eq_none {a : Action} (h : groundAction V facts b a = .ok none) :
    groundPreconditions V facts b a.preconditions = .ok none := by
  obtain ⟨r, hr, h⟩ := bind_eq_ok.mp h
  cases r with
  | none => exact hr
  | some es =>
    obtain ⟨_, _, ⟨⟩⟩ := bind_eq_ok.mp h

/-- A pruned binding is applicable in no state in which the facts hold. -/
theorem groundAction_none_inapplicable {a : Action} (h : groundAction V facts b a = .ok none)
    (hs : FactsHold V facts s) : V.firstFalse s b a.preconditions ≠ .ok none :=
  groundPreconditions_none (groundAction_eq_none h) hs

namespace Stands

variable {g : Grounded}

/-- Ground actions have no parameters, so nothing is bound. -/
theorem binding (h : Stands V facts g) : Binding.ofArgs g.action.parameters [] = .empty := by
  rw [h.parameters]
  rfl

theorem firstFalse_follows (h : Stands V facts g) (hs : FactsHold V facts s) :
    Follows (facts = none) (Option.Rel fun c c' => groundExpr V facts g.binding c = .ok c')
      (V.firstFalse s g.binding g.origin.preconditions)
      (V.firstFalse s .empty g.action.preconditions) :=
  h.preconditions.firstFalse_follows hs

theorem apply_follows (h : Stands V facts g) (hs : FactsHold V facts s) :
    Follows (facts = none) (· = ·) (V.apply s g.binding g.origin) (V.apply s .empty g.action) := by
  rw [Vocabulary.apply, Vocabulary.apply]
  exact (updates_follows h.effects hs).bind_same fun us => .refl _

theorem step_follows (h : Stands V facts g) (hs : FactsHold V facts s) :
    Follows (facts = none) (· = ·) (V.step s g.binding g.origin) (V.step s .empty g.action) := by
  rw [Vocabulary.step, Vocabulary.step]
  refine (h.firstFalse_follows hs).bind fun c c' hcc' => ?_
  cases hcc' with
  | none => exact (h.apply_follows hs).bind_same fun t => .refl _
  | some _ => exact .refl _

end Stands

end LiftedPlanning.Grounder
