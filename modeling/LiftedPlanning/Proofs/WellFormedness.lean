import LiftedPlanning.Proofs.Building
import LiftedPlanning.Proofs.Typing

/-!
# Well-formed problems

A declaration is checked when it is made, against what was declared until then. Later declarations
only add: look-ups that had an answer keep it (`Vocabulary.Grows`), so what was accepted once stays
acceptable, and a built problem is well typed as a whole (`Problem.Built.wellTyped`).

`Problem.WellFormed` spells this out for every part of a problem, with the checks that are run when
problems are built (`Problem.build_wellFormed`).
-/

namespace LiftedPlanning

/-! ## Vocabularies -/

namespace Vocabulary

variable {V : Vocabulary}

/-- Types are declared in order; objects, and the parameters of fluents, have declared types;
fluents have distinct names and defaults of their own value type. -/
structure Coherent (V : Vocabulary) : Prop where
  types : V.types.InOrder
  objects : ∀ o ∈ V.objects, V.types.contains o.type = true
  fluentNames : (V.fluents.map Fluent.name).Nodup
  signatures : ∀ f ∈ V.fluents, V.Declares f.signature
  defaults : ∀ f ∈ V.fluents, ∀ v, f.default = some v → f.accepts v = true

/-- A value that a fluent instance may have: the fluent is declared and accepts the value, and the
arguments fit its signature. -/
def Admits (V : Vocabulary) (i : FluentInstance) (v : Value) : Prop :=
  ∃ f, V.fluent i.fluent = .ok f ∧ List.Forall₂ V.Fits f.signature i.args ∧ f.accepts v = true

theorem Admits.mono {W : Vocabulary} (hVW : V.Grows W) {i : FluentInstance} {v : Value}
    (h : V.Admits i v) : W.Admits i v := by
  obtain ⟨f, hf, hargs, hv⟩ := h
  exact ⟨f, hVW.fluent hf, hargs.imp fun _ _ h => h.mono hVW, hv⟩

theorem find?_of_fluent {name : String} {f : Fluent} (h : V.fluent name = .ok f) :
    (V.fluents.find? fun f => f.name = name) = some f := by
  unfold fluent at h
  split at h
  · next f' hf =>
    cases h
    exact hf
  · cases h

theorem fluent_eq_ok {name : String} {f : Fluent} (h : V.fluent name = .ok f) :
    f ∈ V.fluents ∧ f.name = name := by
  have hf := find?_of_fluent h
  exact ⟨List.mem_of_find?_eq_some hf, by simpa using List.find?_some hf⟩

namespace Coherent

theorem empty : Coherent .empty where
  types := .nil
  objects := nofun
  fluentNames := List.nodup_nil
  signatures := nofun
  defaults := nofun

theorem declareType (hV : V.Coherent) {name : String} {parent : Option String}
    {types : TypeHierarchy} (h : V.types.declare name parent = .ok types) :
    Coherent { V with types := types } where
  types := hV.types.declare h
  objects o ho := TypeHierarchy.contains_of_declare h (hV.objects o ho)
  fluentNames := hV.fluentNames
  signatures f hf := (hV.signatures f hf).mono (.declareType h)
  defaults := hV.defaults

theorem addObject (hV : V.Coherent) {o : Object} (ho : V.types.contains o.type = true) :
    Coherent { V with objects := V.objects ++ [o] } where
  types := hV.types
  objects o' ho' := by
    rcases List.mem_append.mp ho' with hold | hnew
    · exact hV.objects o' hold
    · rwa [List.mem_singleton.mp hnew]
  fluentNames := hV.fluentNames
  signatures := hV.signatures
  defaults := hV.defaults

theorem addFluent (hV : V.Coherent) {f : Fluent}
    (hnew : (V.fluents.any fun g => g.name = f.name) = false) (hsignature : V.Declares f.signature)
    (hdefault : ∀ v, f.default = some v → f.accepts v = true) :
    Coherent { V with fluents := V.fluents ++ [f] } where
  types := hV.types
  objects := hV.objects
  fluentNames := Problem.nodup_concat hV.fluentNames hnew
  signatures g hg := by
    rcases List.mem_append.mp hg with hold | hnew
    · exact hV.signatures g hold
    · rwa [List.mem_singleton.mp hnew]
  defaults g hg := by
    rcases List.mem_append.mp hg with hold | hnew
    · exact hV.defaults g hold
    · rwa [List.mem_singleton.mp hnew]

/-- The value that is there without being listed is of the type of its fluent. -/
theorem accepts_implicitValue (hV : V.Coherent) {f : Fluent} {v : Value} (hf : f ∈ V.fluents)
    (h : f.implicitValue = some v) : f.accepts v = true := by
  unfold Fluent.implicitValue at h
  split at h
  · next hdefault =>
    cases h
    exact hV.defaults f hf v hdefault
  · next hbool =>
    cases h
    rw [Fluent.accepts, hbool]
    rfl
  · cases h

end Coherent

end Vocabulary

/-! ## Problems -/

namespace Problem

/-- The vocabulary is coherent, and everything that speaks about it is typed. -/
structure WellTyped (P : Problem) : Prop where
  vocabulary : P.toVocabulary.Coherent
  initialValues : ∀ i v, P.initialValues.get? i = some v → P.Admits i v
  actions : ∀ a ∈ P.actions, P.ActionTyped a
  goals : ∀ g ∈ P.goals, P.Typed .empty g

namespace WellTyped

variable {P : Problem}

theorem new (name : String) : (Problem.new name).WellTyped where
  vocabulary := .empty
  initialValues := nofun
  actions := nofun
  goals := nofun

/-- A larger vocabulary does no harm to what was typed before. -/
theorem grow (hP : P.WellTyped) {W : Vocabulary} (hW : W.Coherent) (hPW : P.Grows W) :
    WellTyped { P with toVocabulary := W } where
  vocabulary := hW
  initialValues i v hv := (hP.initialValues i v hv).mono hPW
  actions a ha := (hP.actions a ha).mono hPW
  goals g hg := (hP.goals g hg).mono hPW

theorem setInitialValue (hP : P.WellTyped) {i : FluentInstance} {v : Value} (hv : P.Admits i v) :
    WellTyped { P with initialValues := P.initialValues.insert i v } where
  vocabulary := hP.vocabulary
  initialValues j w hw := by
    change (P.initialValues.insert i v).get? j = some w at hw
    rw [SortedMap.get?_insert] at hw
    split at hw
    · next hj =>
      subst hj
      cases hw
      exact hv
    · exact hP.initialValues j w hw
  actions := hP.actions
  goals := hP.goals

theorem addAction (hP : P.WellTyped) {a : Action} (ha : P.ActionTyped a) :
    WellTyped { P with actions := P.actions ++ [a] } where
  vocabulary := hP.vocabulary
  initialValues := hP.initialValues
  actions b hb := by
    rcases List.mem_append.mp hb with hold | hnew
    · exact hP.actions b hold
    · rwa [List.mem_singleton.mp hnew]
  goals := hP.goals

theorem addGoal (hP : P.WellTyped) {goal : Expr} (hgoal : P.Typed .empty goal) :
    WellTyped { P with goals := P.goals ++ [goal] } where
  vocabulary := hP.vocabulary
  initialValues := hP.initialValues
  actions := hP.actions
  goals g hg := by
    rcases List.mem_append.mp hg with hold | hnew
    · exact hP.goals g hold
    · rwa [List.mem_singleton.mp hnew]

end WellTyped

theorem admits_of_checkInstance {V : Vocabulary} {i : FluentInstance} {f : Fluent} {v : Value}
    (hinstance : V.checkInstance i = .ok ()) (hf : V.fluent i.fluent = .ok f)
    (hv : f.accepts v = true) : V.Admits i v := by
  obtain ⟨g, hg, hargs⟩ := bind_eq_ok.mp hinstance
  obtain rfl : g = f := Except.ok.inj (hg.symm.trans hf)
  exact ⟨g, hf, Vocabulary.checkArgs_eq_ok.mp hargs, hv⟩

/-- Every accepted declaration keeps a problem well typed. -/
theorem Built.wellTyped {P : Problem} (h : P.Built) : P.WellTyped := by
  refine h.invariant (I := WellTyped) ?new ?addType ?addObject ?addFluent ?setInitialValue
    ?addAction ?addGoal ?addMetric ?clearMetrics ?skeleton
  case new => exact WellTyped.new
  case addType =>
    intro P Q name parent hP hQ
    obtain ⟨types, htypes, rfl⟩ := addType_eq_ok hQ
    exact hP.grow (hP.vocabulary.declareType htypes) (.declareType htypes)
  case addObject =>
    intro P Q name type hP hQ
    obtain ⟨htype, _, rfl⟩ := addObject_eq_ok hQ
    exact hP.grow (hP.vocabulary.addObject htype) (.addObjects _)
  case addFluent =>
    intro P Q f hP hQ
    obtain ⟨hnew, hsignature, hdefault, rfl⟩ := addFluent_eq_ok hQ
    have hdeclared := Vocabulary.checkParameters_eq_ok.mp hsignature
    exact hP.grow (hP.vocabulary.addFluent hnew hdeclared hdefault) (.addFluents _)
  case setInitialValue =>
    intro P Q i v hP hQ
    obtain ⟨f, hinstance, hf, hv, rfl⟩ := setInitialValue_eq_ok hQ
    exact hP.setInitialValue (admits_of_checkInstance hinstance hf hv)
  case addAction =>
    intro P Q a hP hQ
    obtain ⟨_, hcheck, rfl⟩ := addAction_eq_ok hQ
    exact hP.addAction (Vocabulary.checkAction_eq_ok.mp hcheck)
  case addGoal =>
    intro P Q goal hP hQ
    obtain ⟨hcheck, rfl⟩ := addGoal_eq_ok hQ
    exact hP.addGoal (Vocabulary.checkExpr_eq_ok.mp hcheck)
  case addMetric => exact fun _ hP => ⟨hP.vocabulary, hP.initialValues, hP.actions, hP.goals⟩
  case clearMetrics => exact fun hP => ⟨hP.vocabulary, hP.initialValues, hP.actions, hP.goals⟩
  case skeleton => exact fun _ hP => ⟨hP.vocabulary, hP.initialValues, nofun, nofun⟩

/-! ## What is well formed -/

/-- Names are distinct, a parent type stands before its children, every type that is mentioned is
declared, values have the type of their fluent, and every expression of an action or a goal passes
the check against the problem as it is now. -/
structure WellFormed (P : Problem) : Prop where
  typeNames : P.types.names.Nodup
  parents : ∀ d ∈ P.types.declared, ∀ p, d.parent = some p →
    P.types.names.idxOf p < P.types.names.idxOf d.name
  objectNames : (P.objects.map Object.name).Nodup
  objectTypes : ∀ o ∈ P.objects, P.types.contains o.type = true
  fluentNames : (P.fluents.map Fluent.name).Nodup
  signatures : ∀ f ∈ P.fluents, ∀ p ∈ f.signature, P.types.contains p.type = true
  defaults : ∀ f ∈ P.fluents, ∀ v, f.default = some v → f.valueType.admits v = true
  initialValues : ∀ e ∈ P.initialValues.entries, ∃ f ∈ P.fluents, f.name = e.1.fluent ∧
    List.Forall₂ P.Fits f.signature e.1.args ∧ f.valueType.admits e.2 = true
  actionNames : (P.actions.map Action.name).Nodup
  parameters : ∀ a ∈ P.actions, ∀ p ∈ a.parameters, P.types.contains p.type = true
  preconditions : ∀ a ∈ P.actions, ∀ e ∈ a.preconditions,
    P.checkExpr (.ofParams a.parameters) e = .ok ()
  effects : ∀ a ∈ P.actions, ∀ e ∈ a.effects,
    P.checkExpr (.ofParams a.parameters) e.target = .ok () ∧
      P.checkExpr (.ofParams a.parameters) e.condition = .ok () ∧
      P.checkExpr (.ofParams a.parameters) e.value = .ok ()
  goals : ∀ g ∈ P.goals, P.checkExpr .empty g = .ok ()

/-- Whatever calls a problem is built by, accepted or refused, it is well formed. -/
theorem build_wellFormed (name : String) (calls : List BuilderCall) :
    (build name calls).WellFormed := by
  have hbuilt : (build name calls).Built := ⟨name, calls, rfl⟩
  have hnames := hbuilt.namesDistinct
  have htyped := hbuilt.wellTyped
  have hvocabulary := htyped.vocabulary
  have hcheck {scope : Scope} {e : Expr} (h : (build name calls).Typed scope e) :
      (build name calls).checkExpr scope e = .ok () := Vocabulary.checkExpr_eq_ok.mpr h
  exact {
    typeNames := hvocabulary.types.nodup_names
    parents := fun d hd p hp => hvocabulary.types.idxOf_parent_lt hd hp
    objectNames := hnames.objects
    objectTypes := hvocabulary.objects
    fluentNames := hvocabulary.fluentNames
    signatures := hvocabulary.signatures
    defaults := hvocabulary.defaults
    initialValues := by
      rintro ⟨i, v⟩ he
      have hget := (SortedMap.get?_eq_some_iff_mem _ i v).mpr he
      obtain ⟨f, hf, hargs, hv⟩ := htyped.initialValues i v hget
      obtain ⟨hmem, hname⟩ := Vocabulary.fluent_eq_ok hf
      exact ⟨f, hmem, hname, hargs, hv⟩
    actionNames := hnames.actions
    parameters := fun a ha => (htyped.actions a ha).parameters
    preconditions := fun a ha e he => hcheck ((htyped.actions a ha).preconditions e he)
    effects := by
      intro a ha e he
      have heffect := (htyped.actions a ha).effects e he
      exact ⟨hcheck heffect.target, hcheck heffect.condition, hcheck heffect.value⟩
    goals := fun g hg => hcheck (htyped.goals g hg) }

end Problem

end LiftedPlanning
