import LiftedPlanning.Proofs.PassTyping

/-!
# What can go wrong when a problem is grounded

Ground actions and goals are checked once more when they are added to the ground problem. For a
built problem these checks succeed: the passes keep types, and a fresh name is not in use. What is
left to fail is the expansion of a quantifier over a type that is not declared, and only metrics
can have one, since they are taken as they come (`Grounder.ground_modelError`).
-/

namespace LiftedPlanning

/-! ## Types that quantifiers range over -/

namespace Expr

/-- The types of the variables that the outermost operator binds. -/
def binderTypes : Expr → List String
  | quantified _ vars _ => vars.map Parameter.type
  | _ => []

def quantifiedTypes (e : Expr) : List String := e.subexpressions.flatMap binderTypes

theorem quantifiedTypes_eq (e : Expr) :
    e.quantifiedTypes = e.binderTypes ++ e.children.flatMap quantifiedTypes := by
  unfold quantifiedTypes
  rw [subexpressions_eq, List.flatMap_cons, List.flatMap_assoc]

theorem mem_quantifiedTypes_iff {e : Expr} {t : String} :
    t ∈ e.quantifiedTypes ↔ t ∈ e.binderTypes ∨ ∃ c ∈ e.children, t ∈ c.quantifiedTypes := by
  rw [quantifiedTypes_eq, List.mem_append, List.mem_flatMap]

theorem exists_child_of_mem_quantifiedTypes {e : Expr} (he : e.binderTypes = []) {t : String}
    (ht : t ∈ e.quantifiedTypes) : ∃ c ∈ e.children, t ∈ c.quantifiedTypes := by
  rw [mem_quantifiedTypes_iff, he] at ht
  exact ht.resolve_left List.not_mem_nil

/-- Substitution does not touch the variables of quantifiers. -/
theorem quantifiedTypes_substitute (b : Binding) (e : Expr) :
    (e.substitute b).quantifiedTypes = e.quantifiedTypes := by
  have hnode {d d' : Expr} (hbinder : d'.binderTypes = d.binderTypes)
      (hchildren : d'.children.flatMap quantifiedTypes = d.children.flatMap quantifiedTypes) :
      d'.quantifiedTypes = d.quantifiedTypes := by
    rw [quantifiedTypes_eq, quantifiedTypes_eq d, hbinder, hchildren]
  have hall {es : List Expr} {b : Binding}
      (h : ∀ e ∈ es, ∀ b : Binding, (e.substitute b).quantifiedTypes = e.quantifiedTypes) :
      (es.map (substitute b)).flatMap quantifiedTypes = es.flatMap quantifiedTypes := by
    rw [List.flatMap_map]
    exact List.flatMap_congr fun e he => h e he b
  induction e generalizing b with
  | const v => rfl
  | var x =>
    rw [substitute]
    cases b x <;> rfl
  | fluent f args ih =>
    rw [substitute, substituteAll_eq]
    exact hnode rfl (hall ih)
  | not e ih => exact hnode rfl (hall (List.forall_mem_singleton.mpr ih))
  | junction op es ih =>
    rw [substitute, substituteAll_eq]
    exact hnode rfl (hall ih)
  | series op es ih =>
    rw [substitute, substituteAll_eq]
    exact hnode rfl (hall ih)
  | binary op x y ihx ihy =>
    exact hnode rfl (hall (List.forall_mem_cons.mpr ⟨ihx, List.forall_mem_singleton.mpr ihy⟩))
  | quantified q vars body ih => exact hnode rfl (hall (List.forall_mem_singleton.mpr ih))

end Expr

namespace QualityMetric

def expressions : QualityMetric → List Expr
  | planLength => []
  | actionCosts costs default => costs.entries.map Prod.snd ++ default.toList
  | minimizeFinal e => [e]
  | maximizeFinal e => [e]

theorem mem_expressions_of_actionCost {m : QualityMetric} {action : String} {cost : Expr}
    (h : m.actionCost action = some cost) : cost ∈ m.expressions := by
  cases m with
  | actionCosts costs default =>
    rw [expressions, List.mem_append]
    rcases Option.or_eq_some_iff.mp h with hown | ⟨_, hdefault⟩
    · have hmem := (SortedMap.get?_eq_some_iff_mem costs action cost).mp hown
      exact .inl (List.mem_map_of_mem hmem)
    · exact .inr (Option.mem_toList.mpr hdefault)
  | planLength | minimizeFinal e | maximizeFinal e => cases h

end QualityMetric

/-! ## Expansion -/

namespace Vocabulary

variable {V : Vocabulary} {scope : Scope} {e : Expr}

/-- A failure that names an undeclared type over which the expression quantifies. -/
def LacksType (V : Vocabulary) (e : Expr) (err : ModelError) : Prop :=
  ∃ t ∈ e.quantifiedTypes, V.types.contains t = false ∧ err = .unknownType t

theorem LacksType.of_child {c : Expr} (hc : c ∈ e.children) {err : ModelError}
    (h : V.LacksType c err) : V.LacksType e err := by
  obtain ⟨t, ht, hlacks⟩ := h
  exact ⟨t, Expr.mem_quantifiedTypes_iff.mpr (.inr ⟨c, hc, ht⟩), hlacks⟩

theorem domain_failsOnly (V : Vocabulary) (p : Parameter) :
    FailsOnly (fun err => V.types.contains p.type = false ∧ err = .unknownType p.type)
      (V.domain p) := by
  have hobjects : FailsOnly (fun err => V.types.contains p.type = false ∧ err = .unknownType p.type)
      (V.objectsOf p.type) := by
    unfold objectsOf
    split
    · exact .ok _
    · next h => exact .error ⟨by simpa using h, rfl⟩
  exact hobjects.bind fun os _ => .ok _

theorem expand_failsOnly (V : Vocabulary) (e : Expr) : FailsOnly (V.LacksType e) (V.expand e) := by
  have hall {es : List Expr} (h : ∀ c ∈ es, FailsOnly (V.LacksType c) (V.expand c)) {e : Expr}
      (hes : ∀ c ∈ es, c ∈ e.children) : FailsOnly (V.LacksType e) (V.expandAll es) := by
    rw [expandAll_eq]
    exact FailsOnly.mapM fun c hc => (h c hc).mono fun _ => .of_child (hes c hc)
  induction e with
  | const v => exact .ok _
  | var x => exact .ok _
  | fluent f args ih => exact (hall ih fun _ => id).bind fun _ _ => .ok _
  | not e ih => exact (ih.mono fun _ => .of_child (List.mem_singleton_self e)).bind fun _ _ => .ok _
  | junction op es ih => exact (hall ih fun _ => id).bind fun _ _ => .ok _
  | series op es ih => exact (hall ih fun _ => id).bind fun _ _ => .ok _
  | binary op x y ihx ihy =>
    have hx : x ∈ (Expr.binary op x y).children := List.mem_cons_self
    have hy : y ∈ (Expr.binary op x y).children :=
      List.mem_cons_of_mem _ (List.mem_singleton_self y)
    exact (ihx.mono fun _ => .of_child hx).bind fun _ _ =>
      (ihy.mono fun _ => .of_child hy).bind fun _ _ => .ok _
  | quantified q vars body ih =>
    have hbody : body ∈ (Expr.quantified q vars body).children := List.mem_singleton_self body
    refine (ih.mono fun _ => .of_child hbody).bind fun body' _ => ?_
    have hdomains : FailsOnly (V.LacksType (.quantified q vars body)) (V.domains vars) := by
      refine FailsOnly.mapM fun p hp => (V.domain_failsOnly p).mono fun err herr => ?_
      exact ⟨p.type, Expr.mem_quantifiedTypes_iff.mpr (.inl (List.mem_map_of_mem hp)), herr⟩
    refine (hdomains.bind fun ds _ => .ok _).bind fun argss _ => ?_
    cases argss <;> exact .ok _

theorem expand_total (h : ∀ t ∈ e.quantifiedTypes, V.types.contains t = true) :
    ∃ e', V.expand e = .ok e' := by
  cases hexpand : V.expand e with
  | ok e' => exact ⟨e', rfl⟩
  | error err =>
    obtain ⟨t, ht, hlacks, _⟩ := V.expand_failsOnly e err hexpand
    rw [h t ht] at hlacks
    cases hlacks

/-- A typed expression quantifies over declared types. -/
theorem Typed.contains_of_mem_quantifiedTypes (h : V.Typed scope e) {t : String}
    (ht : t ∈ e.quantifiedTypes) : V.types.contains t = true := by
  induction h with
  | const _ => cases ht
  | var _ => cases ht
  | fluent _ hargs =>
    obtain ⟨a, ha, hat⟩ := Expr.exists_child_of_mem_quantifiedTypes rfl ht
    obtain ⟨p, _, hfits⟩ := exists_left_of_forall₂ hargs ha
    cases hfits <;> cases hat
  | not _ ih =>
    obtain ⟨c, hc, hct⟩ := Expr.exists_child_of_mem_quantifiedTypes rfl ht
    obtain rfl := List.mem_singleton.mp hc
    exact ih hct
  | junction _ ih | series _ ih =>
    obtain ⟨c, hc, hct⟩ := Expr.exists_child_of_mem_quantifiedTypes rfl ht
    exact ih c hc hct
  | binary _ _ ihx ihy =>
    obtain ⟨c, hc, hct⟩ := Expr.exists_child_of_mem_quantifiedTypes rfl ht
    rcases List.mem_pair.mp hc with rfl | rfl
    · exact ihx hct
    · exact ihy hct
  | quantified hvars _ ih =>
    obtain hbinder | ⟨c, hc, hct⟩ := Expr.mem_quantifiedTypes_iff.mp ht
    · obtain ⟨p, hp, rfl⟩ := List.mem_map.mp hbinder
      exact hvars p hp
    · obtain rfl := List.mem_singleton.mp hc
      exact ih hct

end Vocabulary

/-! ## Grounding -/

namespace Grounder

section Expressions

variable {V : Vocabulary} {facts : Option StaticFacts} {b : Binding} {scope : Scope} {e : Expr}

theorem groundExpr_failsOnly (V : Vocabulary) (facts : Option StaticFacts) (b : Binding)
    (e : Expr) : FailsOnly (V.LacksType e) (groundExpr V facts b e) := by
  have hexpand : FailsOnly (V.LacksType e) (V.expand (e.substitute b)) := by
    refine (V.expand_failsOnly _).mono fun err herr => ?_
    rwa [Vocabulary.LacksType, Expr.quantifiedTypes_substitute] at herr
  exact hexpand.bind fun d _ => .ok _

theorem groundExpr_total (h : V.Typed scope e) (facts : Option StaticFacts) (b : Binding) :
    ∃ e', groundExpr V facts b e = .ok e' := by
  have hexpand : ∃ d, V.expand (e.substitute b) = .ok d := by
    apply Vocabulary.expand_total
    intro t ht
    rw [Expr.quantifiedTypes_substitute] at ht
    exact h.contains_of_mem_quantifiedTypes ht
  exact bind_total hexpand fun d _ => ⟨fold facts d, rfl⟩

theorem groundPreconditions_total {es : List Expr} (h : ∀ e ∈ es, V.Typed scope e) :
    ∃ r, groundPreconditions V facts b es = .ok r := by
  induction es with
  | nil => exact ⟨_, rfl⟩
  | cons e es ih =>
    obtain ⟨he, hes⟩ := List.forall_mem_cons.mp h
    rw [groundPreconditions]
    refine bind_total (groundExpr_total he facts b) fun e' _ => ?_
    split
    · exact ⟨none, rfl⟩
    · refine bind_total (ih hes) fun rest _ => ?_
      split <;> exact ⟨_, rfl⟩

theorem groundEffects_total {es : List Effect} (h : ∀ e ∈ es, V.EffectTyped scope e) :
    ∃ es', groundEffects V facts b es = .ok es' := by
  induction es with
  | nil => exact ⟨_, rfl⟩
  | cons e es ih =>
    obtain ⟨he, hes⟩ := List.forall_mem_cons.mp h
    rw [groundEffects]
    refine bind_total (groundExpr_total he.condition facts b) fun condition _ => ?_
    split
    · exact ih hes
    · exact bind_total (groundExpr_total he.value facts b) fun value _ =>
        bind_total (ih hes) fun rest _ => ⟨_, rfl⟩

theorem groundAction_total {a : Action} (h : V.ActionTyped a) :
    ∃ r, groundAction V facts b a = .ok r := by
  refine bind_total (groundPreconditions_total h.preconditions) fun r _ => ?_
  cases r with
  | none => exact ⟨none, rfl⟩
  | some pre => exact bind_total (groundEffects_total h.effects) fun eff _ => ⟨_, rfl⟩

end Expressions

/-! ### Actions -/

section Actions

variable {G : Grounder} {P : Problem} {a : Action} {args : List String}

/-- The error does not come from the model. -/
def External (err : GroundingError) : Prop := ∀ e, err ≠ .model e

theorem emit_total {V : Vocabulary} {g : Grounding} {pre : List Expr} {eff : List Effect}
    (h : ∀ name, V.ActionTyped ⟨name, [], pre, eff⟩) : ∃ g', emit V g a args pre eff = .ok g' :=
  bind_total ⟨(), Vocabulary.checkAction_eq_ok.mpr (h _)⟩ fun _ _ => ⟨_, rfl⟩

theorem groundArgs_failsOnly (hP : P.Built) (ha : a ∈ P.actions)
    (hargs : List.Forall₂ P.Fits a.parameters args) (g : Grounding) :
    FailsOnly External (G.groundArgs P (G.factsOf P) a g args) := by
  have hground : ∃ r, groundAction P.toVocabulary (G.factsOf P) (.ofArgs a.parameters args) a =
      .ok r := groundAction_total (hP.wellTyped.actions a ha)
  unfold groundArgs
  split
  · exact .error nofun
  · refine FailsOnly.bind (.of_total (mapError_total hground)) fun r hr => ?_
    cases r with
    | none => exact .ok g
    | some r =>
      obtain ⟨pre, eff⟩ := r
      dsimp only
      split
      · exact .error nofun
      · have htyped := groundAction_typed hP ha hargs (mapError_eq_ok.mp hr)
        exact .of_total (mapError_total (emit_total htyped))

theorem groundSchema_failsOnly (hP : P.Built) (ha : a ∈ P.actions) (g : Grounding) :
    FailsOnly External (G.groundSchema P (G.factsOf P) g a) := by
  have hdomains := Vocabulary.domains_of_declares (hP.wellTyped.actions a ha).parameters
  refine FailsOnly.bind (.of_total (mapError_total hdomains)) fun ds hds => ?_
  have hds := mapError_eq_ok.mp hds
  rw [foldTuples_eq]
  refine FailsOnly.foldlM_steps (fun g args hargs => ?_) g
  have hfits := Vocabulary.fits_of_mem_tuples hP.namesDistinct.objects hds hargs
  exact groundArgs_failsOnly hP ha hfits g

theorem groundSchemas_failsOnly (hP : P.Built) (g : Grounding) :
    FailsOnly External (P.actions.foldlM (G.groundSchema P (G.factsOf P)) g) :=
  FailsOnly.foldlM_steps (fun g _ ha => groundSchema_failsOnly hP ha g) g

/-- To emit a ground action is to add it to the ground problem made so far. The names in use are
those of its actions, so that it would be refused as a duplicate is out of the question. -/
theorem addAction_groundBase (P : Problem) (g : Grounding) (a : Action) (args : List String)
    (pre : List Expr) (eff : List Effect) :
    (groundBase P g.made.reverse).addAction
        ⟨FreshName.fresh g.names ("_".intercalate (a.name :: args)), [], pre, eff⟩ =
      (emit P.toVocabulary g a args pre eff).map fun g' => groundBase P g'.made.reverse := by
  have hfresh := FreshName.fresh_notMem g.names ("_".intercalate (a.name :: args))
  have hnew : ¬ ((groundBase P g.made.reverse).actions.any fun b =>
      b.name = FreshName.fresh g.names ("_".intercalate (a.name :: args))) = true := by
    rw [List.any_eq_true]
    rintro ⟨_, hb, hname⟩
    obtain ⟨x, hx, rfl⟩ := List.mem_map.mp hb
    have hused : x.name ∈ g.names :=
      (g.mem_names _).mpr (List.mem_map_of_mem (List.mem_reverse.mp hx))
    rw [Grounded.name, of_decide_eq_true hname] at hused
    exact hfresh hused
  rw [Problem.addAction, if_neg hnew, emit]
  change (P.checkAction _ >>= _) = _
  cases P.checkAction
      ⟨FreshName.fresh g.names ("_".intercalate (a.name :: args)), [], pre, eff⟩ with
  | error e => rfl
  | ok _ => exact congrArg Except.ok (by simp [groundBase, Grounding.add])

end Actions

/-! ### Goals -/

section Goals

variable {G : Grounder} {P : Problem}

theorem groundGoal_vocabulary {facts : Option StaticFacts} {Q Q' : Problem} {goal : Expr}
    (h : groundGoal P facts Q goal = .ok Q') : Q'.toVocabulary = Q.toVocabulary := by
  obtain ⟨e, _, h⟩ := bind_eq_ok.mp h
  split at h
  · cases h
    rfl
  · obtain ⟨_, rfl⟩ := Problem.addGoal_eq_ok h
    rfl

theorem groundGoal_total (hP : P.Built) {Q : Problem} (hQ : Q.toVocabulary = P.toVocabulary)
    {goal : Expr} (hgoal : goal ∈ P.goals) :
    ∃ Q', groundGoal P (G.factsOf P) Q goal = .ok Q' := by
  refine bind_total (groundExpr_total (hP.wellTyped.goals goal hgoal) _ _) fun e he => ?_
  split
  · exact ⟨Q, rfl⟩
  · have hcheck : Q.checkExpr .empty e = .ok () := by
      rw [hQ]
      exact Vocabulary.checkExpr_eq_ok.mpr (groundGoal_typed hP hgoal he)
    exact bind_total ⟨(), hcheck⟩ fun _ _ => ⟨_, rfl⟩

theorem groundGoals_failsOnly (hP : P.Built) {Q : Problem}
    (hQ : Q.toVocabulary = P.toVocabulary) :
    FailsOnly (fun _ => False) (P.goals.foldlM (groundGoal P (G.factsOf P)) Q) :=
  FailsOnly.foldlM (fun _ hQ _ hgoal => .of_total (groundGoal_total hP hQ hgoal))
    (fun _ hQ _ _ hgoal => (groundGoal_vocabulary hgoal).trans hQ) hQ

end Goals

/-! ### Metrics -/

section Metrics

variable {V : Vocabulary} {facts : Option StaticFacts} {made : List Grounded}

def LacksTypeIn (V : Vocabulary) (m : QualityMetric) (err : ModelError) : Prop :=
  ∃ e ∈ m.expressions, V.LacksType e err

theorem groundCost_failsOnly (V : Vocabulary) (facts : Option StaticFacts) (m : QualityMetric)
    (g : Grounded) : FailsOnly (LacksTypeIn V m) (groundCost V facts m g) := by
  unfold groundCost
  split
  · next cost hcost =>
    have hmem := QualityMetric.mem_expressions_of_actionCost hcost
    have hground := (groundExpr_failsOnly V facts g.binding cost).mono fun err herr =>
      show LacksTypeIn V m err from ⟨cost, hmem, herr⟩
    exact hground.bind fun _ _ => .ok _
  · exact .ok _

theorem groundMetric_failsOnly (V : Vocabulary) (facts : Option StaticFacts) (made : List Grounded)
    (m : QualityMetric) : FailsOnly (LacksTypeIn V m) (groundMetric V facts made m) := by
  have hfinal (e : Expr) (he : e ∈ m.expressions) :
      FailsOnly (LacksTypeIn V m) (groundExpr V facts .empty e) :=
    (groundExpr_failsOnly V facts .empty e).mono fun err herr => ⟨e, he, herr⟩
  cases m with
  | planLength => exact .ok _
  | actionCosts costs default =>
    exact (FailsOnly.mapM fun g _ => groundCost_failsOnly V facts _ g).bind fun _ _ => .ok _
  | minimizeFinal e => exact (hfinal e (List.mem_singleton_self e)).bind fun _ _ => .ok _
  | maximizeFinal e => exact (hfinal e (List.mem_singleton_self e)).bind fun _ _ => .ok _

end Metrics

/-! ### Problems -/

theorem ground_failsOnly {P : Problem} (hP : P.Built) (G : Grounder) :
    FailsOnly (fun err => ∀ e, err = .model e → ∃ m ∈ P.metrics, LacksTypeIn P.toVocabulary m e)
      (G.ground P) := by
  unfold ground
  split
  · refine ((groundSchemas_failsOnly hP .empty).mono fun err herr e he => ?_).bind fun g _ => ?_
    · exact absurd he (herr e)
    · have hgoals := groundGoals_failsOnly (G := G) hP (Q := groundBase P g.made.reverse) rfl
      refine (hgoals.mapError fun _ => False.elim).bind fun Q _ => ?_
      have hmetrics : FailsOnly (fun e => ∃ m ∈ P.metrics, LacksTypeIn P.toVocabulary m e)
          (P.metrics.mapM (groundMetric P.toVocabulary (G.factsOf P) g.made.reverse)) :=
        FailsOnly.mapM fun m hm => (groundMetric_failsOnly _ _ _ m).mono fun e he => ⟨m, hm, he⟩
      refine (hmetrics.mapError fun e he => ?_).bind fun ms _ => .ok _
      rintro _ ⟨⟩
      exact he
  · exact .error nofun

/-- Grounding a built problem, with whatever settings, fails on the model only where a metric
quantifies over a type that is not declared, and so never if there are no metrics. In particular no
ground action is refused as a duplicate: to emit it is to add it, with all checks. -/
theorem ground_modelError {P : Problem} (hP : P.Built) (G : Grounder) :
    (∀ err, G.ground P = .error (.model err) →
      ∃ t, err = .unknownType t ∧ P.types.contains t = false ∧
        ∃ m ∈ P.metrics, ∃ e ∈ m.expressions, t ∈ e.quantifiedTypes) ∧
      (P.metrics = [] → ∀ err, G.ground P ≠ .error (.model err)) ∧
      ∀ (g : Grounding) (a : Action) (args : List String) (pre : List Expr) (eff : List Effect),
        (groundBase P g.made.reverse).addAction
            ⟨FreshName.fresh g.names ("_".intercalate (a.name :: args)), [], pre, eff⟩ =
          (emit P.toVocabulary g a args pre eff).map fun g' => groundBase P g'.made.reverse := by
  have hfails := ground_failsOnly hP G
  refine ⟨fun err herr => ?_, fun hmetrics err herr => ?_, addAction_groundBase P⟩
  · obtain ⟨m, hm, e, he, t, ht, hlacks, rfl⟩ := hfails _ herr err rfl
    exact ⟨t, rfl, hlacks, m, hm, e, he, ht⟩
  · obtain ⟨m, hm, _⟩ := hfails _ herr err rfl
    rw [hmetrics] at hm
    cases hm

/-- Nobody declared pallets. -/
theorem ground_modelError_pallets :
    let pallets : Problem := Examples.depot.addMetric
      (.minimizeFinal (.not (.quantified .existential [⟨"p", "pallet"⟩] (.bool true))))
    (Examples.grounder true).ground pallets = .error (.model (.unknownType "pallet")) ∧
      (∃ m ∈ pallets.metrics, ∃ e ∈ m.expressions, "pallet" ∈ e.quantifiedTypes) ∧
      ∀ err, (Examples.grounder true).ground pallets.clearMetrics ≠ .error (.model err) := by
  intro pallets
  have hpallets : pallets.Built := Examples.depot_built.performed (.addMetric _)
  have hcleared : pallets.clearMetrics.Built := hpallets.performed .clearMetrics
  have hfails : (Examples.grounder true).ground pallets =
      .error (.model (.unknownType "pallet")) := by decide +kernel
  obtain ⟨hunknown, _, _⟩ := ground_modelError hpallets (Examples.grounder true)
  obtain ⟨_, hnever, _⟩ := ground_modelError hcleared (Examples.grounder true)
  obtain ⟨t, ht, _, hmetrics⟩ := hunknown _ hfails
  obtain rfl := ModelError.unknownType.inj ht
  exact ⟨hfails, hmetrics, hnever rfl⟩

end Grounder

end LiftedPlanning
