import LiftedPlanning.Proofs.CanonicalStates
import LiftedPlanning.Proofs.GroundProblem

/-!
# Grounding keeps types

Grounding an expression takes three passes: objects are put in place of variables, quantifiers are
expanded, and with pruning static facts are folded in. Each pass keeps an expression typed, in a
scope from which the replaced variables are gone. So a ground action is typed without parameters,
and a ground goal is typed in the empty scope.

Expansion and folding put new operators around parts of the old expression. What they need of a
property to keep it is that operators pass it on, which is stated once as `Expr.Hereditary`.
-/

namespace LiftedPlanning

/-! ## What expanding and folding an operator make -/

namespace Expr

/-- Gathering takes operands as they are, and those of junctions of the same kind. -/
theorem mem_of_gather {op : Junction} {es kept : List Expr} (h : gather op es = some kept)
    {e : Expr} (he : e ∈ kept) : e ∈ es ∨ ∃ inner, .junction op inner ∈ es ∧ e ∈ inner := by
  have hcons {x : Expr} {es : List Expr}
      (h : e ∈ es ∨ ∃ inner, .junction op inner ∈ es ∧ e ∈ inner) :
      e ∈ x :: es ∨ ∃ inner, .junction op inner ∈ x :: es ∧ e ∈ inner := by
    rcases h with h | ⟨inner, hinner, h⟩
    · exact .inl (List.mem_cons_of_mem _ h)
    · exact .inr ⟨inner, List.mem_cons_of_mem _ hinner, h⟩
  fun_induction gather op es generalizing kept with
  | case1 =>
    cases h
    cases he
  | case2 es ih => exact hcons (ih h he)
  | case3 p es hp => cases h
  | case4 inner es ih =>
    obtain ⟨rest, hrest, rfl⟩ := Option.map_eq_some_iff.mp h
    rcases List.mem_append.mp he with he | he
    · exact .inr ⟨inner, List.mem_cons_self, he⟩
    · exact hcons (ih hrest he)
  | case5 op' inner es hop ih =>
    obtain ⟨rest, hrest, rfl⟩ := Option.map_eq_some_iff.mp h
    rcases List.mem_cons.mp he with rfl | he
    · exact .inl List.mem_cons_self
    · exact hcons (ih hrest he)
  | case6 d es _ _ ih =>
    obtain ⟨rest, hrest, rfl⟩ := Option.map_eq_some_iff.mp h
    rcases List.mem_cons.mp he with rfl | he
    · exact .inl List.mem_cons_self
    · exact hcons (ih hrest he)

theorem foldJunction_cases (op : Junction) (es : List Expr) :
    (∃ p, foldJunction op es = .bool p) ∨ ∃ kept, gather op es = some kept ∧
      (foldJunction op es ∈ kept ∨ foldJunction op es = .junction op kept) := by
  unfold foldJunction
  split
  · exact .inl ⟨_, rfl⟩
  · exact .inl ⟨_, rfl⟩
  · next e h => exact .inr ⟨[e], h, .inl (List.mem_singleton_self e)⟩
  · next kept _ _ h => exact .inr ⟨kept, h, .inr rfl⟩

theorem foldNot_cases (e : Expr) : (∃ p, foldNot e = .bool p) ∨ foldNot e = .not e := by
  fun_cases foldNot e with
  | case1 p => exact .inl ⟨_, rfl⟩
  | case2 e => exact .inr rfl

theorem foldSeries_cases (op : Series) (es : List Expr) :
    (∃ q, foldSeries op es = .number q) ∨ foldSeries op es = .series op es := by
  unfold foldSeries
  split
  · exact .inl ⟨_, rfl⟩
  · exact .inr rfl

/-- Only an implication can become its conclusion, or the negation of its premise if this is no
truth value. -/
theorem foldBinary_cases (op : BinaryOp) (x y : Expr) :
    (∃ p, foldBinary op x y = .bool p) ∨ (∃ q, foldBinary op x y = .number q) ∨
      (op = .implies ∧ (foldBinary op x y = y ∨
        (∀ b, x ≠ .bool b) ∧ foldBinary op x y = .not x)) ∨
      foldBinary op x y = .binary op x y := by
  fun_cases foldBinary op x y with
  | case1 | case2 | case5 | case6 | case7 | case8 | case9 | case10 => exact .inl ⟨_, rfl⟩
  | case3 => exact .inr (.inr (.inl ⟨rfl, .inl rfl⟩))
  | case4 x hfalse htrue =>
    refine .inr (.inr (.inl ⟨rfl, .inr ⟨?_, rfl⟩⟩))
    rintro (_ | _)
    · exact hfalse
    · exact htrue
  | case11 | case13 => exact .inr (.inl ⟨_, rfl⟩)
  | case12 | case14 => exact .inr (.inr (.inr rfl))

end Expr

theorem Vocabulary.expandBody_cases {V : Vocabulary} {q : Quantifier} {vars : List Parameter}
    {body e : Expr} (h : V.expandBody q vars body = .ok e) :
    e = .bool q.junction.neutral ∨ ∃ ds, V.domains vars = .ok ds ∧
      e = .junction q.junction ((tuples ds).map fun os => body.substitute (.ofArgs vars os)) := by
  obtain ⟨argss, hargss, h⟩ := bind_eq_ok.mp h
  obtain ⟨ds, hds, ⟨⟩⟩ := bind_eq_ok.mp hargss
  rw [listTuples_eq] at h
  split at h
  · cases h
    exact .inl rfl
  · cases h
    exact .inr ⟨ds, hds, rfl⟩

/-! ## Properties that operators pass on -/

/-- A property of expressions that all truth values and numbers have and that operators take over
from their operands; a junction has it only if all operands do. Nothing is said of fluents and
quantifiers. -/
structure Expr.Hereditary (Q : Expr → Prop) : Prop where
  bool : ∀ b, Q (.bool b)
  number : ∀ q, Q (.number q)
  not : ∀ {e}, Q e → Q (.not e)
  junction : ∀ {op es}, Q (.junction op es) ↔ ∀ e ∈ es, Q e
  series : ∀ {op es}, (∀ e ∈ es, Q e) → Q (.series op es)
  binary : ∀ {op x y}, Q x → Q y → Q (.binary op x y)

namespace Expr.Hereditary

variable {Q : Expr → Prop}

theorem gather (hQ : Hereditary Q) {op : Junction} {es kept : List Expr}
    (h : Expr.gather op es = some kept) (hes : ∀ e ∈ es, Q e) : ∀ e ∈ kept, Q e := by
  intro e he
  rcases mem_of_gather h he with he | ⟨inner, hinner, he⟩
  · exact hes e he
  · exact hQ.junction.mp (hes _ hinner) e he

theorem foldJunction (hQ : Hereditary Q) (op : Junction) {es : List Expr} (hes : ∀ e ∈ es, Q e) :
    Q (Expr.foldJunction op es) := by
  rcases foldJunction_cases op es with ⟨p, hp⟩ | ⟨kept, h, hmem | hjunction⟩
  · rw [hp]
    exact hQ.bool p
  · exact hQ.gather h hes _ hmem
  · rw [hjunction]
    exact hQ.junction.mpr (hQ.gather h hes)

theorem foldNot (hQ : Hereditary Q) {e : Expr} (he : Q e) : Q (Expr.foldNot e) := by
  rcases foldNot_cases e with ⟨p, hp⟩ | hnot
  · rw [hp]
    exact hQ.bool p
  · rw [hnot]
    exact hQ.not he

theorem foldSeries (hQ : Hereditary Q) (op : Series) {es : List Expr} (hes : ∀ e ∈ es, Q e) :
    Q (Expr.foldSeries op es) := by
  rcases foldSeries_cases op es with ⟨q, hq⟩ | hseries
  · rw [hq]
    exact hQ.number q
  · rw [hseries]
    exact hQ.series hes

theorem foldBinary (hQ : Hereditary Q) (op : BinaryOp) {x y : Expr} (hx : Q x) (hy : Q y) :
    Q (Expr.foldBinary op x y) := by
  rcases foldBinary_cases op x y with ⟨p, h⟩ | ⟨q, h⟩ | ⟨_, h | ⟨_, h⟩⟩ | h <;> rw [h]
  · exact hQ.bool p
  · exact hQ.number q
  · exact hy
  · exact hQ.not hx
  · exact hQ.binary hx hy

/-- An expanded quantifier has the property if all instances of its body have it. -/
theorem expandBody (hQ : Hereditary Q) {V : Vocabulary} {q : Quantifier} {vars : List Parameter}
    {body e : Expr} (h : V.expandBody q vars body = .ok e)
    (hbody : ∀ ds, V.domains vars = .ok ds → ∀ os ∈ tuples ds,
      Q (body.substitute (.ofArgs vars os))) : Q e := by
  rcases Vocabulary.expandBody_cases h with rfl | ⟨ds, hds, rfl⟩
  · exact hQ.bool _
  · refine hQ.junction.mpr fun e he => ?_
    obtain ⟨os, hos, rfl⟩ := List.mem_map.mp he
    exact hbody ds hds os hos

end Expr.Hereditary

namespace Vocabulary

variable {V : Vocabulary} {scope scope' : Scope} {b : Binding} {e : Expr}

theorem hereditary_typed (V : Vocabulary) (scope : Scope) : Expr.Hereditary (V.Typed scope) where
  bool := .bool
  number := .number
  not := .not
  junction := by
    intro op es
    constructor
    · intro h
      cases h with
      | junction hes => exact hes
    · exact .junction
  series := .series
  binary := .binary

/-! ## Substitution -/

/-- A binding takes one scope to another: a variable is replaced by an object of its type, or it
is left alone and keeps its meaning. -/
def Covers (V : Vocabulary) (b : Binding) (scope scope' : Scope) : Prop :=
  ∀ x t, scope x = some t →
    (∃ o, b x = some o ∧ V.Fits ⟨x, t⟩ o) ∨ (b x = none ∧ scope' x = some t)

/-- The instances of a body are read where the quantifier stands, and a ground action outside of
the scope of its parameters. -/
theorem covers_ofArgs {params : List Parameter} {args : List String}
    (h : List.Forall₂ V.Fits params args) (scope : Scope) :
    V.Covers (.ofArgs params args) (scope.declareAll params) scope := by
  intro x t ht
  rcases lookup_declareAll h scope .empty x with ⟨htype, hobject⟩ | ⟨t', o, ht', ho, hfit⟩
  · exact .inr ⟨hobject, htype.symm.trans ht⟩
  · obtain rfl : t' = t := Option.some.inj (ht'.symm.trans ht)
    exact .inl ⟨o, ho, hfit⟩

/-- What a parameter list declares does not depend on the scope around it. -/
theorem declareAll_apply (params : List Parameter) (scope : Scope) (x : String) :
    scope.declareAll params x =
      if Parameter.binds params x then Scope.ofParams params x else scope x := by
  induction params generalizing scope with
  | nil => rfl
  | cons p params ih =>
    have hlater (s : Scope) : s.declareAll (p :: params) x =
        if Parameter.binds params x then Scope.ofParams params x else s.declare p x := ih _
    have hbinds : Parameter.binds (p :: params) x =
        (decide (p.name = x) || Parameter.binds params x) := rfl
    rw [Scope.ofParams, hlater, hlater, hbinds]
    by_cases hlast : Parameter.binds params x = true
    · simp [hlast]
    · by_cases hx : x = p.name
      · simp [Scope.declare, hx]
      · simp [Scope.declare, hlast, hx, Ne.symm hx]

/-- Under a quantifier the substitution leaves the quantified variables alone. -/
theorem Covers.hide (hb : V.Covers b scope scope') (vars : List Parameter) :
    V.Covers (b.hide vars) (scope.declareAll vars) (scope'.declareAll vars) := by
  intro x t ht
  rw [declareAll_apply] at ht
  rw [declareAll_apply, Binding.hide]
  by_cases hx : Parameter.binds vars x = true
  · rw [if_pos hx] at ht ⊢
    rw [if_pos hx]
    exact .inr ⟨rfl, ht⟩
  · rw [if_neg hx] at ht ⊢
    rw [if_neg hx]
    exact hb x t ht

theorem ArgFits.substitute (hV : V.types.InOrder) (hb : V.Covers b scope scope') {p : Parameter}
    (h : V.ArgFits scope p e) : V.ArgFits scope' p (e.substitute b) := by
  cases h with
  | @var x t ht hcompatible =>
    rw [Expr.substitute]
    rcases hb x t ht with ⟨o, ho, ob, hob, hsub⟩ | ⟨hnone, ht'⟩
    · rw [ho]
      exact .object ⟨ob, hob, hV.isCompatible_trans hsub hcompatible⟩
    · rw [hnone]
      exact .var ht' hcompatible
  | object h => exact .object h

theorem Typed.substitute (hV : V.types.InOrder) (hb : V.Covers b scope scope')
    (h : V.Typed scope e) : V.Typed scope' (e.substitute b) := by
  induction h generalizing b scope' with
  | const h => exact .const h
  | @var scope x t ht =>
    rw [Expr.substitute]
    rcases hb x t ht with ⟨o, ho, ob, hob, _⟩ | ⟨hnone, ht'⟩
    · rw [ho]
      refine .const ?_
      rintro _ ⟨⟩
      exact ⟨ob, hob⟩
    · rw [hnone]
      exact .var ht'
  | fluent hfl hargs =>
    rw [Expr.substitute, Expr.substituteAll_eq]
    refine .fluent hfl (List.forall₂_map_right_iff.mpr ?_)
    exact hargs.imp fun _ _ harg => harg.substitute hV hb
  | not _ ih => exact .not (ih hb)
  | junction _ ih =>
    rw [Expr.substitute, Expr.substituteAll_eq]
    exact .junction (List.forall_mem_map.mpr fun e he => ih e he hb)
  | series _ ih =>
    rw [Expr.substitute, Expr.substituteAll_eq]
    exact .series (List.forall_mem_map.mpr fun e he => ih e he hb)
  | binary _ _ ihx ihy => exact .binary (ihx hb) (ihy hb)
  | @quantified _ _ vars _ hvars _ ih => exact .quantified hvars (ih (hb.hide vars))

/-! ## Expansion -/

theorem expandArgs_of_argFits {params : List Parameter} {args : List Expr}
    (h : List.Forall₂ (V.ArgFits scope) params args) : V.expandAll args = .ok args := by
  rw [expandAll_eq, mapM_eq_ok, List.forall₂_same]
  intro a ha
  obtain ⟨p, _, hfits⟩ := exists_left_of_forall₂ h ha
  cases hfits with
  | var _ _ => rfl
  | object _ => rfl

theorem Typed.expand (hV : V.types.InOrder) (hobjects : V.ObjectsDistinct) {e' : Expr}
    (h : V.Typed scope e) (he' : V.expand e = .ok e') : V.Typed scope e' := by
  induction h generalizing e' with
  | const h =>
    cases he'
    exact .const h
  | var ht =>
    cases he'
    exact .var ht
  | fluent hfl hargs =>
    obtain ⟨args', hargs', ⟨⟩⟩ := bind_eq_ok.mp he'
    rw [expandArgs_of_argFits hargs] at hargs'
    cases hargs'
    exact .fluent hfl hargs
  | not _ ih =>
    obtain ⟨x', hx, ⟨⟩⟩ := bind_eq_ok.mp he'
    exact .not (ih hx)
  | junction _ ih =>
    obtain ⟨es', hes, ⟨⟩⟩ := bind_eq_ok.mp he'
    rw [expandAll_eq] at hes
    refine .junction fun d hd => ?_
    obtain ⟨e, he, hed⟩ := exists_of_mem_mapM hes hd
    exact ih e he hed
  | series _ ih =>
    obtain ⟨es', hes, ⟨⟩⟩ := bind_eq_ok.mp he'
    rw [expandAll_eq] at hes
    refine .series fun d hd => ?_
    obtain ⟨e, he, hed⟩ := exists_of_mem_mapM hes hd
    exact ih e he hed
  | binary _ _ ihx ihy =>
    obtain ⟨x', hx, hxy⟩ := bind_eq_ok.mp he'
    obtain ⟨y', hy, ⟨⟩⟩ := bind_eq_ok.mp hxy
    exact .binary (ihx hx) (ihy hy)
  | @quantified scope q vars body _ _ ih =>
    obtain ⟨body', hbody, he'⟩ := bind_eq_ok.mp he'
    refine (hereditary_typed V scope).expandBody he' fun ds hds os hos => ?_
    exact (ih hbody).substitute hV (covers_ofArgs (fits_of_mem_tuples hobjects hds hos) scope)

/-! ## Simplification -/

theorem simplifyArgs_of_argFits (F : StaticFacts) {params : List Parameter} {args : List Expr}
    (h : List.Forall₂ (V.ArgFits scope) params args) : F.simplifyAll args = args := by
  rw [StaticFacts.simplifyAll_eq]
  refine (List.map_congr_left fun a ha => ?_).trans (List.map_id args)
  obtain ⟨p, _, hfits⟩ := exists_left_of_forall₂ h ha
  cases hfits with
  | var _ _ => rfl
  | object _ => rfl

end Vocabulary

namespace Problem

variable {P : Problem} {scope : Scope} {e : Expr}

open Vocabulary

/-- The values of fluents are truth values and numbers, never objects. -/
theorem WellTyped.typed_value (hP : P.WellTyped) {i : FluentInstance} {v : Value}
    (h : P.value P.initialState i = .ok v) (scope : Scope) : P.Typed scope (.const v) := by
  obtain ⟨f, _, hv⟩ := (initialState_canonical hP).accepts_value hP.vocabulary h
  cases v with
  | bool p => exact .bool p
  | number q => exact .number q
  | object o =>
    rw [Fluent.accepts] at hv
    cases htype : f.valueType <;> rw [htype] at hv <;> cases hv

theorem WellTyped.simplify (hP : P.WellTyped) (h : P.Typed scope e) :
    P.Typed scope ((StaticFacts.ofProblem P).simplify e) := by
  have hQ (scope : Scope) := hereditary_typed P.toVocabulary scope
  induction h with
  | const h => exact .const h
  | var ht => exact .var ht
  | @fluent scope f args fl hfl hargs =>
    rw [StaticFacts.simplify, simplifyArgs_of_argFits _ hargs, StaticFacts.foldFluent]
    split
    · next v hv =>
      obtain ⟨os, _, _, _, hvalue⟩ := StaticFacts.value?_eq_some hv
      exact hP.typed_value hvalue scope
    · exact .fluent hfl hargs
  | not _ ih => exact (hQ _).foldNot ih
  | junction _ ih =>
    rw [StaticFacts.simplify, StaticFacts.simplifyAll_eq]
    exact (hQ _).foldJunction _ (List.forall_mem_map.mpr ih)
  | series _ ih =>
    rw [StaticFacts.simplify, StaticFacts.simplifyAll_eq]
    exact (hQ _).foldSeries _ (List.forall_mem_map.mpr ih)
  | binary _ _ ihx ihy => exact (hQ _).foldBinary _ ihx ihy
  | quantified hvars _ ih => exact .quantified hvars ih

end Problem

/-! ## Ground expressions and actions -/

namespace Grounder

variable {G : Grounder} {P : Problem} {scope scope' : Scope} {b : Binding} {e e' : Expr}

theorem fold_typed (hP : P.Built) (h : P.Typed scope e) :
    P.Typed scope (fold (G.factsOf P) e) := by
  unfold factsOf
  split
  · exact hP.wellTyped.simplify h
  · exact h

/-- Substitution, expansion and simplification one after the other. -/
theorem groundExpr_typed (hP : P.Built) (hb : P.Covers b scope scope') (h : P.Typed scope e)
    (he' : groundExpr P.toVocabulary (G.factsOf P) b e = .ok e') : P.Typed scope' e' := by
  obtain ⟨d, hd, rfl⟩ := groundExpr_eq_ok he'
  have hV := hP.wellTyped.vocabulary.types
  have hsubst : P.Typed scope' (e.substitute b) := h.substitute hV hb
  exact fold_typed hP (hsubst.expand hV hP.namesDistinct.objects hd)

theorem groundEffect_typed (hP : P.Built) (hb : P.Covers b scope scope') {f f' : Effect}
    (h : P.EffectTyped scope f) (hf' : GroundEffect P.toVocabulary (G.factsOf P) b f f') :
    P.EffectTyped scope' f' where
  target := by
    rw [hf'.target]
    exact h.target.substitute hP.wellTyped.vocabulary.types hb
  condition := groundExpr_typed hP hb h.condition hf'.condition
  value := groundExpr_typed hP hb h.value hf'.value

/-- A ground action is typed without parameters. -/
theorem Stands.typed {g : Grounded} (h : Stands P.toVocabulary (G.factsOf P) g) (hP : P.Built)
    (hg : g.origin ∈ P.actions) (hargs : List.Forall₂ P.Fits g.origin.parameters g.args) :
    P.ActionTyped g.action := by
  have hlifted := hP.wellTyped.actions g.origin hg
  have hcovers : P.Covers g.binding (.ofParams g.origin.parameters) .empty :=
    Vocabulary.covers_ofArgs hargs .empty
  refine ⟨?_, ?_, ?_⟩ <;> rw [h.parameters]
  · exact List.forall_mem_nil _
  · intro e' he'
    obtain ⟨e, he, hground⟩ := h.preconditions.exists_of_mem he'
    exact groundExpr_typed hP hcovers (hlifted.preconditions e he) hground
  · intro f' hf'
    obtain ⟨f, hf, hground⟩ := groundEffects_exists_of_mem h.effects hf'
    exact groundEffect_typed hP hcovers (hlifted.effects f hf) hground

theorem groundAction_typed (hP : P.Built) {a : Action} (ha : a ∈ P.actions) {args : List String}
    (hargs : List.Forall₂ P.Fits a.parameters args) {pre : List Expr} {eff : List Effect}
    (h : groundAction P.toVocabulary (G.factsOf P) (.ofArgs a.parameters args) a =
      .ok (some (pre, eff))) (name : String) : P.ActionTyped ⟨name, [], pre, eff⟩ := by
  obtain ⟨hpre, heff⟩ := groundAction_eq_some h
  have hstands : Stands P.toVocabulary (G.factsOf P) ⟨⟨name, [], pre, eff⟩, a, args⟩ :=
    ⟨rfl, hpre, heff⟩
  exact hstands.typed hP ha hargs

theorem groundGoal_typed (hP : P.Built) {goal : Expr} (hgoal : goal ∈ P.goals)
    (he' : groundExpr P.toVocabulary (G.factsOf P) .empty goal = .ok e') : P.Typed .empty e' := by
  have hcovers : P.Covers .empty .empty .empty := nofun
  exact groundExpr_typed hP hcovers (hP.wellTyped.goals goal hgoal) he'

end Grounder

end LiftedPlanning
