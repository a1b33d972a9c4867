import LiftedPlanning.Proofs.ArgumentLists
import LiftedPlanning.Proofs.Subtypes

/-!
# Typed expressions

`Vocabulary.checkExpr` walks an expression and stops at the first thing wrong with it. What it
accepts is said here without the walk: `Typed` has one rule for each operator, and an expression is
accepted exactly if it is typed (`checkExpr_eq_ok`). Effects and actions follow
(`checkAction_eq_ok`).

What is typed stays typed when more is declared (`Typed.mono`), since a look-up that had an answer
keeps it.
-/

namespace LiftedPlanning.Vocabulary

variable {V W : Vocabulary} {scope : Scope} {p : Parameter} {e : Expr}

/-! ## Rules -/

def Declares (V : Vocabulary) (params : List Parameter) : Prop :=
  ∀ p ∈ params, V.types.contains p.type = true

/-- An expression that may stand as an argument where a parameter is expected: a variable in scope,
or an object, of a type that fits. -/
inductive ArgFits (V : Vocabulary) (scope : Scope) (p : Parameter) : Expr → Prop where
  | var {x t : String} : scope x = some t → V.types.isCompatible t p.type = true →
      ArgFits V scope p (.var x)
  | object {o : String} : V.Fits p o → ArgFits V scope p (.object o)

/-- An expression whose fluents are declared and applied to arguments that fit, whose objects and
quantified types are declared, and whose variables are in scope. -/
inductive Typed (V : Vocabulary) : Scope → Expr → Prop where
  | const {scope : Scope} {v : Value} : (∀ o, v = .object o → ∃ ob, V.object o = .ok ob) →
      Typed V scope (.const v)
  | var {scope : Scope} {x t : String} : scope x = some t → Typed V scope (.var x)
  | fluent {scope : Scope} {f : String} {args : List Expr} {fl : Fluent} : V.fluent f = .ok fl →
      List.Forall₂ (V.ArgFits scope) fl.signature args → Typed V scope (.fluent f args)
  | not {scope : Scope} {e : Expr} : Typed V scope e → Typed V scope (.not e)
  | junction {scope : Scope} {op : Junction} {es : List Expr} : (∀ e ∈ es, Typed V scope e) →
      Typed V scope (.junction op es)
  | series {scope : Scope} {op : Series} {es : List Expr} : (∀ e ∈ es, Typed V scope e) →
      Typed V scope (.series op es)
  | binary {scope : Scope} {op : BinaryOp} {a b : Expr} : Typed V scope a → Typed V scope b →
      Typed V scope (.binary op a b)
  | quantified {scope : Scope} {q : Quantifier} {vars : List Parameter} {body : Expr} :
      V.Declares vars → Typed V (scope.declareAll vars) body →
      Typed V scope (.quantified q vars body)

theorem Typed.bool (b : Bool) : V.Typed scope (.bool b) := .const nofun

theorem Typed.number (q : Rat) : V.Typed scope (.number q) := .const nofun

structure EffectTyped (V : Vocabulary) (scope : Scope) (e : Effect) : Prop where
  target : V.Typed scope e.target
  condition : V.Typed scope e.condition
  value : V.Typed scope e.value

structure ActionTyped (V : Vocabulary) (a : Action) : Prop where
  parameters : V.Declares a.parameters
  preconditions : ∀ e ∈ a.preconditions, V.Typed (.ofParams a.parameters) e
  effects : ∀ e ∈ a.effects, V.EffectTyped (.ofParams a.parameters) e

/-! ## Checks accept what is typed -/

theorem typeOf_eq_ok {x t : String} : scope.typeOf x = .ok t ↔ scope x = some t := by
  unfold Scope.typeOf
  cases scope x with
  | none => exact ⟨nofun, nofun⟩
  | some t' => simp

theorem checkParameters_eq_ok {params : List Parameter} :
    V.checkParameters params = .ok () ↔ V.Declares params := by
  unfold checkParameters Declares
  split
  · next p hp =>
    refine ⟨nofun, fun h => ?_⟩
    have hundeclared : V.types.contains p.type = false := by simpa using List.find?_some hp
    rw [h p (List.mem_of_find?_eq_some hp)] at hundeclared
    cases hundeclared
  · next hnone => simpa using List.find?_eq_none.mp hnone

theorem checkType_eq_ok {item arg type : String} :
    V.checkType item arg type p = .ok () ↔ V.types.isCompatible type p.type = true := by
  unfold checkType
  split
  · next h => simpa using h
  · next h => simpa using h

theorem checkExprArg_eq_ok {item arg : Expr} :
    V.checkExprArg scope item p arg = .ok () ↔ V.ArgFits scope p arg := by
  unfold checkExprArg
  constructor
  · intro h
    obtain ⟨⟨shown, type⟩, htype, h⟩ := bind_eq_ok.mp h
    have hfits := checkType_eq_ok.mp h
    unfold argType at htype
    split at htype
    · obtain ⟨t, ht, ⟨⟩⟩ := bind_eq_ok.mp htype
      exact .var (typeOf_eq_ok.mp ht) hfits
    · obtain ⟨o, ho, ⟨⟩⟩ := bind_eq_ok.mp htype
      exact .object ⟨o, ho, hfits⟩
    · cases htype
  · intro h
    cases h with
    | var ht hfits =>
      rw [argType, typeOf_eq_ok.mpr ht]
      exact checkType_eq_ok.mpr hfits
    | object h =>
      obtain ⟨o, ho, hfits⟩ := h
      rw [argType, ho]
      exact checkType_eq_ok.mpr hfits

/-- The arguments of a fluent are checked one by one once their number is right. -/
theorem checkExpr_fluent_eq_ok {f : String} {args : List Expr} :
    V.checkExpr scope (.fluent f args) = .ok () ↔
      ∃ fl, V.fluent f = .ok fl ∧ List.Forall₂ (V.ArgFits scope) fl.signature args := by
  rw [checkExpr, bind_eq_ok]
  refine exists_congr fun fl => and_congr_right fun _ => ?_
  rw [List.forall₂_iff_zip]
  split
  · next hlen => exact ⟨nofun, fun h => absurd h.1.symm hlen⟩
  · next hlen =>
    have hlen : fl.signature.length = args.length := (not_not.mp hlen).symm
    rw [forM_eq_ok]
    constructor
    · exact fun h => ⟨hlen, fun hx => checkExprArg_eq_ok.mp (h _ hx)⟩
    · exact fun h x hx => checkExprArg_eq_ok.mpr (h.2 hx)

/-- An expression is accepted exactly if it is typed. -/
theorem checkExpr_eq_ok : V.checkExpr scope e = .ok () ↔ V.Typed scope e := by
  induction e generalizing scope with
  | const v =>
    cases v with
    | bool b => exact ⟨fun _ => .bool b, fun _ => rfl⟩
    | number q => exact ⟨fun _ => .number q, fun _ => rfl⟩
    | object o =>
      rw [checkExpr, bind_eq_ok]
      constructor
      · rintro ⟨ob, hob, _⟩
        refine .const ?_
        rintro _ ⟨⟩
        exact ⟨ob, hob⟩
      · rintro (⟨ho⟩)
        obtain ⟨ob, hob⟩ := ho o rfl
        exact ⟨ob, hob, rfl⟩
  | var x =>
    rw [checkExpr, bind_eq_ok]
    constructor
    · rintro ⟨t, ht, _⟩
      exact .var (typeOf_eq_ok.mp ht)
    · rintro (⟨⟩ | ⟨ht⟩)
      exact ⟨_, typeOf_eq_ok.mpr ht, rfl⟩
  | fluent f args =>
    rw [checkExpr_fluent_eq_ok]
    constructor
    · rintro ⟨fl, hfl, hargs⟩
      exact .fluent hfl hargs
    · intro h
      cases h with
      | fluent hfl hargs => exact ⟨_, hfl, hargs⟩
  | not e ih =>
    rw [checkExpr, ih]
    constructor
    · exact .not
    · intro h
      cases h with
      | not he => exact he
  | junction op es ih =>
    rw [checkExpr, checkExprs_eq, forM_eq_ok, forall₂_congr fun e he => ih e he]
    constructor
    · exact .junction
    · intro h
      cases h with
      | junction hes => exact hes
  | series op es ih =>
    rw [checkExpr, checkExprs_eq, forM_eq_ok, forall₂_congr fun e he => ih e he]
    constructor
    · exact .series
    · intro h
      cases h with
      | series hes => exact hes
  | binary op a b iha ihb =>
    rw [checkExpr, check_bind_eq_ok, iha, ihb]
    constructor
    · exact fun ⟨ha, hb⟩ => .binary ha hb
    · intro h
      cases h with
      | binary ha hb => exact ⟨ha, hb⟩
  | quantified q vars body ih =>
    rw [checkExpr, check_bind_eq_ok, checkParameters_eq_ok, ih]
    constructor
    · exact fun ⟨hvars, hbody⟩ => .quantified hvars hbody
    · intro h
      cases h with
      | quantified hvars hbody => exact ⟨hvars, hbody⟩

theorem checkEffect_eq_ok {e : Effect} :
    V.checkEffect scope e = .ok () ↔ V.EffectTyped scope e := by
  unfold checkEffect
  simp only [check_bind_eq_ok, checkExpr_eq_ok]
  constructor
  · rintro ⟨htarget, hcondition, hvalue⟩
    exact ⟨htarget, hcondition, hvalue⟩
  · rintro ⟨htarget, hcondition, hvalue⟩
    exact ⟨htarget, hcondition, hvalue⟩

theorem checkAction_eq_ok {a : Action} : V.checkAction a = .ok () ↔ V.ActionTyped a := by
  unfold checkAction
  simp only [check_bind_eq_ok, forM_eq_ok, checkParameters_eq_ok, checkExpr_eq_ok,
    checkEffect_eq_ok]
  constructor
  · rintro ⟨hparameters, hpreconditions, heffects⟩
    exact ⟨hparameters, hpreconditions, heffects⟩
  · rintro ⟨hparameters, hpreconditions, heffects⟩
    exact ⟨hparameters, hpreconditions, heffects⟩

/-! ## Scopes and bindings -/

/-- Every variable in scope is bound to an object that fits its type. -/
def Respects (V : Vocabulary) (scope : Scope) (b : Binding) : Prop :=
  ∀ x t, scope x = some t → ∃ o, b x = some o ∧ V.Fits ⟨x, t⟩ o

/-- Parameters and arguments are looked up alike: a name is that of no parameter, or it means a
type on one side and an object of that type on the other. -/
theorem lookup_declareAll {params : List Parameter} {args : List String}
    (h : List.Forall₂ V.Fits params args) (scope : Scope) (b : Binding) (x : String) :
    (scope.declareAll params x = scope x ∧ b.setAll params args x = b x) ∨
      ∃ t o, scope.declareAll params x = some t ∧ b.setAll params args x = some o ∧
        V.Fits ⟨x, t⟩ o := by
  induction h generalizing scope b with
  | nil => exact .inl ⟨rfl, rfl⟩
  | @cons p o params args hfit _ ih =>
    have hself : scope.declareAll (p :: params) = (scope.declare p).declareAll params := rfl
    rw [hself, Binding.setAll]
    rcases ih (scope.declare p) (b.set p.name o) with ⟨htype, hobject⟩ | hlater
    · rw [htype, hobject]
      by_cases hx : x = p.name
      · exact .inr ⟨p.type, o, if_pos hx, if_pos hx, hfit⟩
      · exact .inl ⟨if_neg hx, if_neg hx⟩
    · exact .inr hlater

theorem Respects.setAll {b : Binding} (hb : V.Respects scope b) {params : List Parameter}
    {args : List String} (h : List.Forall₂ V.Fits params args) :
    V.Respects (scope.declareAll params) (b.setAll params args) := by
  intro x t ht
  rcases lookup_declareAll h scope b x with ⟨htype, hobject⟩ | ⟨t', o, ht', ho, hfit⟩
  · rw [htype] at ht
    rw [hobject]
    exact hb x t ht
  · obtain rfl : t' = t := Option.some.inj (ht'.symm.trans ht)
    exact ⟨o, ho, hfit⟩

/-- Arguments that fit their parameters respect the scope of these. -/
theorem respects_ofArgs {params : List Parameter} {args : List String}
    (h : List.Forall₂ V.Fits params args) :
    V.Respects (.ofParams params) (.ofArgs params args) := by
  have hempty : V.Respects .empty .empty := nofun
  exact hempty.setAll h

theorem domains_of_declares {params : List Parameter} (h : V.Declares params) :
    ∃ ds, V.domains params = .ok ds := by
  have hdomain : ∀ p ∈ params, ∃ d, V.domain p = .ok d := by
    intro p hp
    unfold domain objectsOf
    rw [if_pos (h p hp)]
    exact ⟨_, rfl⟩
  exact mapM_total hdomain

/-- Enumerated arguments fit. -/
theorem fits_of_mem_tuples (hV : V.ObjectsDistinct) {params : List Parameter}
    {ds : List (List String)} (hds : V.domains params = .ok ds) {args : List String}
    (hargs : args ∈ tuples ds) : List.Forall₂ V.Fits params args := by
  have haccepted : V.checkArgs "" params args = .ok () := (mem_tuples_domains hV hds).mp hargs
  exact checkArgs_eq_ok.mp haccepted

/-! ## More declarations -/

/-- Every look-up that has an answer keeps it, and compatible types stay compatible. -/
structure Grows (V W : Vocabulary) : Prop where
  contains : ∀ {t}, V.types.contains t = true → W.types.contains t = true
  isCompatible : ∀ {s t}, V.types.isCompatible s t = true → W.types.isCompatible s t = true
  object : ∀ {name o}, V.object name = .ok o → W.object name = .ok o
  fluent : ∀ {name f}, V.fluent name = .ok f → W.fluent name = .ok f

namespace Grows

/-- What is found in a list is still found when the list goes on. -/
theorem find?_append {α : Type} {f : α → Bool} {l l' : List α} {a : α} (h : l.find? f = some a) :
    (l ++ l').find? f = some a := by
  rw [List.find?_append, h, Option.some_or]

theorem declareType {name : String} {parent : Option String} {types : TypeHierarchy}
    (h : V.types.declare name parent = .ok types) : V.Grows { V with types := types } :=
  ⟨TypeHierarchy.contains_of_declare h, TypeHierarchy.isCompatible_of_declare h, id, id⟩

theorem addObjects (os : List Object) : V.Grows { V with objects := V.objects ++ os } := by
  refine ⟨id, id, fun {name o} ho => ?_, id⟩
  unfold Vocabulary.object at ho ⊢
  split at ho
  · next o' hfind =>
    rw [find?_append hfind]
    exact ho
  · cases ho

theorem addFluents (fs : List Fluent) : V.Grows { V with fluents := V.fluents ++ fs } := by
  refine ⟨id, id, id, fun {name f} hf => ?_⟩
  unfold Vocabulary.fluent at hf ⊢
  split at hf
  · next f' hfind =>
    rw [find?_append hfind]
    exact hf
  · cases hf

end Grows

theorem Declares.mono (hVW : V.Grows W) {params : List Parameter} (h : V.Declares params) :
    W.Declares params := fun p hp => hVW.contains (h p hp)

theorem Fits.mono (hVW : V.Grows W) {arg : String} (h : V.Fits p arg) : W.Fits p arg := by
  obtain ⟨o, ho, hfits⟩ := h
  exact ⟨o, hVW.object ho, hVW.isCompatible hfits⟩

theorem ArgFits.mono (hVW : V.Grows W) (h : V.ArgFits scope p e) : W.ArgFits scope p e := by
  cases h with
  | var ht hfits => exact .var ht (hVW.isCompatible hfits)
  | object h => exact .object (h.mono hVW)

/-- What is typed stays typed when more is declared. -/
theorem Typed.mono (hVW : V.Grows W) (h : V.Typed scope e) : W.Typed scope e := by
  induction h with
  | const ho =>
    refine .const fun o hv => ?_
    obtain ⟨ob, hob⟩ := ho o hv
    exact ⟨ob, hVW.object hob⟩
  | var ht => exact .var ht
  | fluent hfl hargs => exact .fluent (hVW.fluent hfl) (hargs.imp fun _ _ h => h.mono hVW)
  | not _ ih => exact .not ih
  | junction _ ih => exact .junction ih
  | series _ ih => exact .series ih
  | binary _ _ iha ihb => exact .binary iha ihb
  | quantified hvars _ ih => exact .quantified (hvars.mono hVW) ih

theorem EffectTyped.mono (hVW : V.Grows W) {e : Effect} (h : V.EffectTyped scope e) :
    W.EffectTyped scope e :=
  ⟨h.target.mono hVW, h.condition.mono hVW, h.value.mono hVW⟩

theorem ActionTyped.mono (hVW : V.Grows W) {a : Action} (h : V.ActionTyped a) : W.ActionTyped a :=
  ⟨h.parameters.mono hVW, fun e he => (h.preconditions e he).mono hVW,
    fun e he => (h.effects e he).mono hVW⟩

end LiftedPlanning.Vocabulary
