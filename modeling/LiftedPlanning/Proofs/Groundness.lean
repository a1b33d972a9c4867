import LiftedPlanning.Proofs.FreeVariables
import LiftedPlanning.Proofs.GroundFailures
import LiftedPlanning.Proofs.GroundMetrics

/-!
# Ground output

What the grounder puts out has no quantifiers, and no variables but those that no binding of the
action has replaced. The passes are followed with a bound on the variables that are left
(`Expr.Within`): expansion leaves the free variables, substitution takes away those it binds, and
simplification brings nothing in.

For actions and goals nothing is left, because what a built problem accepted has its free variables
in scope. Metrics are taken as they come, so there it has to be assumed
(`Grounder.ground_isGround`).
-/

namespace LiftedPlanning

namespace Expr

/-! ## Variables that are left -/

theorem mem_subexpressions_iff {d e : Expr} :
    d ∈ e.subexpressions ↔ d = e ∨ ∃ c ∈ e.children, d ∈ c.subexpressions := by
  rw [subexpressions_eq, List.mem_cons, List.mem_flatMap]

theorem forall_subexpressions_iff {p : Expr → Prop} {e : Expr} :
    (∀ d ∈ e.subexpressions, p d) ↔ p e ∧ ∀ c ∈ e.children, ∀ d ∈ c.subexpressions, p d := by
  constructor
  · intro h
    refine ⟨h e (mem_subexpressions_iff.mpr (.inl rfl)), fun c hc d hd => ?_⟩
    exact h d (mem_subexpressions_iff.mpr (.inr ⟨c, hc, hd⟩))
  · rintro ⟨hself, hchildren⟩ d hd
    rcases mem_subexpressions_iff.mp hd with rfl | ⟨c, hc, hd⟩
    · exact hself
    · exact hchildren c hc d hd

/-- Without quantifiers, and with none but the allowed variables. -/
def Within (allowed : String → Prop) (e : Expr) : Prop :=
  ∀ d ∈ e.subexpressions, d.isQuantifier = false ∧ ∀ x, d = .var x → allowed x

/-- Without quantifiers and without variables, at any depth. -/
def Ground (e : Expr) : Prop := e.hasQuantifier = false ∧ ∀ x, .var x ∉ e.subexpressions

variable {allowed allowed' : String → Prop} {e : Expr}

theorem within_iff : e.Within allowed ↔
    (e.isQuantifier = false ∧ ∀ x, e = .var x → allowed x) ∧
      ∀ c ∈ e.children, c.Within allowed := forall_subexpressions_iff

theorem Within.mono (h : e.Within allowed) (hallowed : ∀ x, allowed x → allowed' x) :
    e.Within allowed' :=
  fun d hd => ⟨(h d hd).1, fun x hx => hallowed x ((h d hd).2 x hx)⟩

theorem Within.hasQuantifier (h : e.Within allowed) : e.hasQuantifier = false :=
  List.any_eq_false.mpr fun d hd => Bool.eq_false_iff.mp (h d hd).1

theorem Within.ground (h : e.Within fun _ => False) : e.Ground :=
  ⟨h.hasQuantifier, fun x hx => (h (.var x) hx).2 x rfl⟩

theorem within_const (v : Value) : (const v).Within allowed :=
  within_iff.mpr ⟨⟨rfl, nofun⟩, List.forall_mem_nil _⟩

theorem within_var {x : String} (h : allowed x) : (var x).Within allowed := by
  refine within_iff.mpr ⟨⟨rfl, ?_⟩, List.forall_mem_nil _⟩
  rintro _ ⟨⟩
  exact h

theorem within_fluent {f : String} {args : List Expr} :
    (fluent f args).Within allowed ↔ ∀ a ∈ args, a.Within allowed :=
  within_iff.trans (and_iff_right ⟨rfl, nofun⟩)

theorem hereditary_within (allowed : String → Prop) : Hereditary (Within allowed) where
  bool b := within_const (.bool b)
  number q := within_const (.number q)
  not he := within_iff.mpr ⟨⟨rfl, nofun⟩, List.forall_mem_singleton.mpr he⟩
  junction := within_iff.trans (and_iff_right ⟨rfl, nofun⟩)
  series hes := within_iff.mpr ⟨⟨rfl, nofun⟩, hes⟩
  binary hx hy := within_iff.mpr
    ⟨⟨rfl, nofun⟩, List.forall_mem_cons.mpr ⟨hx, List.forall_mem_singleton.mpr hy⟩⟩

/-! ## Substitution -/

/-- Substitution leaves the free variables that it does not bind. -/
theorem mem_freeOccurrences_substitute {b : Binding} {x : String} :
    x ∈ (e.substitute b).freeOccurrences ↔ x ∈ e.freeOccurrences ∧ b x = none := by
  rw [freeOccurrences_substitute, List.mem_filter, decide_eq_true_eq]

theorem Within.substitute {b : Binding} (h : e.Within allowed)
    (hleft : ∀ x, allowed x → b x = none → allowed' x) : (e.substitute b).Within allowed' := by
  induction e generalizing b with
  | const v => exact within_const v
  | var x =>
    rw [Expr.substitute]
    cases hx : b x with
    | some o => exact within_const (.object o)
    | none => exact within_var (hleft x ((within_iff.mp h).1.2 x rfl) hx)
  | fluent f args ih =>
    rw [Expr.substitute, substituteAll_eq]
    have hargs := (within_iff.mp h).2
    exact within_fluent.mpr (List.forall_mem_map.mpr fun a ha => ih a ha (hargs a ha) hleft)
  | not e ih =>
    have he := (within_iff.mp h).2 e (List.mem_singleton_self e)
    exact (hereditary_within _).not (ih he hleft)
  | junction op es ih =>
    rw [Expr.substitute, substituteAll_eq]
    have hes := (within_iff.mp h).2
    refine (hereditary_within _).junction.mpr (List.forall_mem_map.mpr fun e he => ?_)
    exact ih e he (hes e he) hleft
  | series op es ih =>
    rw [Expr.substitute, substituteAll_eq]
    have hes := (within_iff.mp h).2
    refine (hereditary_within _).series (List.forall_mem_map.mpr fun e he => ?_)
    exact ih e he (hes e he) hleft
  | binary op x y ihx ihy =>
    obtain ⟨hx, hy⟩ := List.forall_mem_cons.mp (within_iff.mp h).2
    have hy := List.forall_mem_singleton.mp hy
    exact (hereditary_within _).binary (ihx hx hleft) (ihy hy hleft)
  | quantified q vars body ih => cases (within_iff.mp h).1.1

/-! ## Expansion and simplification -/

/-- Expansion leaves the free variables. -/
theorem within_of_expand {V : Vocabulary} {e' : Expr} (h : V.expand e = .ok e') :
    e'.Within (· ∈ e.freeOccurrences) := by
  have hall {es es' : List Expr}
      (hes : ∀ e ∈ es, ∀ {e'}, V.expand e = .ok e' → e'.Within (· ∈ e.freeOccurrences))
      (h : V.expandAll es = .ok es') : ∀ d ∈ es', d.Within (· ∈ freeOccurrencesOfAll es) := by
    intro d hd
    rw [Vocabulary.expandAll_eq] at h
    obtain ⟨e, he, hed⟩ := exists_of_mem_mapM h hd
    refine (hes e he hed).mono fun x hx => ?_
    rw [freeOccurrencesOfAll_eq]
    exact List.mem_flatMap.mpr ⟨e, he, hx⟩
  induction e generalizing e' with
  | const v =>
    cases h
    exact within_const v
  | var x =>
    cases h
    exact within_var (List.mem_singleton_self x)
  | fluent f args ih =>
    obtain ⟨args', hargs, ⟨⟩⟩ := bind_eq_ok.mp h
    exact within_fluent.mpr (hall ih hargs)
  | not e ih =>
    obtain ⟨d, hd, ⟨⟩⟩ := bind_eq_ok.mp h
    exact (hereditary_within _).not (ih hd)
  | junction op es ih =>
    obtain ⟨es', hes, ⟨⟩⟩ := bind_eq_ok.mp h
    exact (hereditary_within _).junction.mpr (hall ih hes)
  | series op es ih =>
    obtain ⟨es', hes, ⟨⟩⟩ := bind_eq_ok.mp h
    exact (hereditary_within _).series (hall ih hes)
  | binary op x y ihx ihy =>
    obtain ⟨x', hx, hxy⟩ := bind_eq_ok.mp h
    obtain ⟨y', hy, ⟨⟩⟩ := bind_eq_ok.mp hxy
    exact (hereditary_within _).binary ((ihx hx).mono fun _ => List.mem_append_left _)
      ((ihy hy).mono fun _ => List.mem_append_right _)
  | quantified q vars body ih =>
    obtain ⟨body', hbody, h⟩ := bind_eq_ok.mp h
    refine (hereditary_within _).expandBody h fun ds hds os hos => ?_
    refine (ih hbody).substitute fun x hx hnone => List.mem_filter.mpr ⟨hx, ?_⟩
    -- each instance replaces all variables that the quantifier binds
    cases hbinds : Parameter.binds vars x with
    | false => rfl
    | true =>
      have hsome := Binding.ofArgs_isSome hbinds (Vocabulary.length_of_mem_tuples_domains hds hos)
      rw [hnone] at hsome
      cases hsome

/-- Simplification brings nothing in. -/
theorem Within.simplify (F : StaticFacts) (h : e.Within allowed) :
    (F.simplify e).Within allowed := by
  have hQ := hereditary_within allowed
  induction e with
  | const v => exact h
  | var x => exact h
  | fluent f args ih =>
    rw [StaticFacts.simplify, StaticFacts.simplifyAll_eq, StaticFacts.foldFluent]
    split
    · exact within_const _
    · have hargs := (within_iff.mp h).2
      exact within_fluent.mpr (List.forall_mem_map.mpr fun a ha => ih a ha (hargs a ha))
  | not e ih =>
    have he := (within_iff.mp h).2 e (List.mem_singleton_self e)
    exact hQ.foldNot (ih he)
  | junction op es ih =>
    rw [StaticFacts.simplify, StaticFacts.simplifyAll_eq]
    have hes := (within_iff.mp h).2
    exact hQ.foldJunction op (List.forall_mem_map.mpr fun e he => ih e he (hes e he))
  | series op es ih =>
    rw [StaticFacts.simplify, StaticFacts.simplifyAll_eq]
    have hes := (within_iff.mp h).2
    exact hQ.foldSeries op (List.forall_mem_map.mpr fun e he => ih e he (hes e he))
  | binary op x y ihx ihy =>
    obtain ⟨hx, hy⟩ := List.forall_mem_cons.mp (within_iff.mp h).2
    exact hQ.foldBinary op (ihx hx) (ihy (List.forall_mem_singleton.mp hy))
  | quantified q vars body ih => cases (within_iff.mp h).1.1

/-! ## The executable check -/

/-- Where there are no quantifiers, all variables are free. -/
theorem var_mem_subexpressions_iff (h : e.Within allowed) {x : String} :
    .var x ∈ e.subexpressions ↔ x ∈ e.freeOccurrences := by
  have hall {es : List Expr} (hes : ∀ e ∈ es, (.var x ∈ e.subexpressions ↔ x ∈ e.freeOccurrences)) :
      (∃ c ∈ es, .var x ∈ c.subexpressions) ↔ x ∈ freeOccurrencesOfAll es := by
    rw [freeOccurrencesOfAll_eq, List.mem_flatMap]
    exact exists_congr fun c => and_congr_right fun hc => hes c hc
  have hnode {d : Expr} (hd : ∀ y, d ≠ .var y) :
      .var x ∈ d.subexpressions ↔ ∃ c ∈ d.children, .var x ∈ c.subexpressions :=
    mem_subexpressions_iff.trans (or_iff_right fun hx => hd x hx.symm)
  induction e with
  | const v => simp [subexpressions, freeOccurrences]
  | var y => simp [subexpressions, freeOccurrences]
  | fluent f args ih =>
    have hargs := (within_iff.mp h).2
    exact (hnode (by simp)).trans (hall fun a ha => ih a ha (hargs a ha))
  | not e ih =>
    have he := (within_iff.mp h).2 e (List.mem_singleton_self e)
    simpa [hnode, children, freeOccurrences] using ih he
  | junction op es ih =>
    have hes := (within_iff.mp h).2
    exact (hnode (by simp)).trans (hall fun e he => ih e he (hes e he))
  | series op es ih =>
    have hes := (within_iff.mp h).2
    exact (hnode (by simp)).trans (hall fun e he => ih e he (hes e he))
  | binary op y z ihy ihz =>
    obtain ⟨hy, hz⟩ := List.forall_mem_cons.mp (within_iff.mp h).2
    have hz := List.forall_mem_singleton.mp hz
    simpa [hnode, children, freeOccurrences] using or_congr (ihy hy) (ihz hz)
  | quantified q vars body ih => cases (within_iff.mp h).1.1

/-- Whether an expression is ground can be seen from its free variables. -/
theorem ground_iff : e.Ground ↔ e.hasQuantifier = false ∧ e.freeVariables = [] := by
  refine and_congr_right fun hquantifier => ?_
  have hwithin : e.Within fun _ => True := fun d hd =>
    ⟨Bool.eq_false_iff.mpr (List.any_eq_false.mp hquantifier d hd), fun _ _ => trivial⟩
  rw [List.eq_nil_iff_forall_not_mem]
  refine forall_congr' fun x => not_congr ?_
  rw [var_mem_subexpressions_iff hwithin, mem_freeVariables]

end Expr

/-- The check of an action decides whether it is ground. -/
theorem Action.isGround_iff {a : Action} :
    a.isGround = true ↔ a.parameters = [] ∧ ∀ e ∈ a.expressions, e.Ground := by
  simp [Action.isGround, Expr.ground_iff]

/-! ## Typed expressions -/

namespace Vocabulary

variable {V : Vocabulary} {scope : Scope} {b : Binding} {e : Expr}

/-- The free variables of a typed expression are in scope. -/
theorem Typed.mem_scope (h : V.Typed scope e) {x : String} (hx : x ∈ e.freeOccurrences) :
    ∃ t, scope x = some t := by
  induction h with
  | const _ => cases hx
  | @var scope y t ht =>
    obtain rfl := List.mem_singleton.mp hx
    exact ⟨t, ht⟩
  | fluent _ hargs =>
    rw [Expr.freeOccurrences, Expr.freeOccurrencesOfAll_eq] at hx
    obtain ⟨a, ha, hx⟩ := List.mem_flatMap.mp hx
    obtain ⟨p, _, hfits⟩ := exists_left_of_forall₂ hargs ha
    cases hfits with
    | @var y t ht _ =>
      obtain rfl := List.mem_singleton.mp hx
      exact ⟨t, ht⟩
    | object _ => cases hx
  | not _ ih => exact ih hx
  | junction _ ih | series _ ih =>
    rw [Expr.freeOccurrences, Expr.freeOccurrencesOfAll_eq] at hx
    obtain ⟨e, he, hx⟩ := List.mem_flatMap.mp hx
    exact ih e he hx
  | binary _ _ ihx ihy =>
    rcases List.mem_append.mp hx with hx | hx
    · exact ihx hx
    · exact ihy hx
  | quantified _ _ ih =>
    obtain ⟨hx, hbinds⟩ := List.mem_filter.mp hx
    obtain ⟨t, ht⟩ := ih hx
    rw [declareAll_apply, if_neg (by simpa using hbinds)] at ht
    exact ⟨t, ht⟩

/-- A binding that respects the scope binds the free variables. -/
theorem Typed.binding_ne_none (h : V.Typed scope e) (hb : V.Respects scope b) {x : String}
    (hx : x ∈ e.freeOccurrences) : b x ≠ none := by
  obtain ⟨t, ht⟩ := h.mem_scope hx
  obtain ⟨o, ho, _⟩ := hb x t ht
  rw [ho]
  exact Option.some_ne_none o

/-- The target of an effect has no quantifiers, so substitution alone makes it ground. -/
theorem Typed.ground_target {f : String} {args : List Expr} (h : V.Typed scope (.fluent f args))
    (hb : V.Respects scope b) : ∀ a ∈ args, (a.substitute b).Ground := by
  have hargs : ∃ params, List.Forall₂ (V.ArgFits scope) params args := by
    cases h with
    | fluent _ hargs => exact ⟨_, hargs⟩
  obtain ⟨params, hargs⟩ := hargs
  have hexpand : V.expand (.fluent f args) = .ok (.fluent f args) := by
    rw [Vocabulary.expand, expandArgs_of_argFits hargs]
    rfl
  intro a ha
  have hwithin := Expr.within_fluent.mp (Expr.within_of_expand hexpand) a ha
  exact (hwithin.substitute fun x hx => h.binding_ne_none hb hx).ground

end Vocabulary

/-! ## Actions and goals -/

namespace Grounder

variable {V : Vocabulary} {facts : Option StaticFacts} {scope : Scope} {b : Binding} {e e' : Expr}

/-- A ground expression has the free variables that are not bound. -/
theorem within_of_groundExpr (h : groundExpr V facts b e = .ok e') :
    e'.Within fun x => x ∈ e.freeOccurrences ∧ b x = none := by
  obtain ⟨d, hd, rfl⟩ := groundExpr_eq_ok h
  have hexpanded : d.Within fun x => x ∈ e.freeOccurrences ∧ b x = none :=
    (Expr.within_of_expand hd).mono fun x hx => Expr.mem_freeOccurrences_substitute.mp hx
  unfold fold
  split
  · exact hexpanded.simplify _
  · exact hexpanded

theorem ground_of_typed (h : V.Typed scope e) (hb : V.Respects scope b)
    (he' : groundExpr V facts b e = .ok e') : e'.Ground :=
  ((within_of_groundExpr he').mono fun _ hx => h.binding_ne_none hb hx.1 hx.2).ground

namespace Makes

variable {G : Grounder} {P : Problem} {R : CompilerResult} {cs : List Candidate}
  {made : List Grounded} {g : Grounded}

theorem expressions_ground (h : G.Makes P R cs made) (hP : P.Built) (hg : g ∈ made) :
    ∀ e ∈ g.action.expressions, e.Ground := by
  have hstands := h.kept.stands g hg
  have htyped := hP.wellTyped.actions _ (h.origin_mem hP.namesDistinct hg)
  have hargs := Vocabulary.checkArgs_eq_ok.mp (h.checkArguments_lifted hP.namesDistinct hg)
  have hb : P.Respects (.ofParams g.origin.parameters) g.binding := Vocabulary.respects_ofArgs hargs
  intro e' he'
  rcases List.mem_append.mp he' with hpre | heff
  · obtain ⟨e, he, hground⟩ := hstands.preconditions.exists_of_mem hpre
    exact ground_of_typed (htyped.preconditions e he) hb hground
  · obtain ⟨f', hf', he'⟩ := List.mem_flatMap.mp heff
    obtain ⟨f, hf, hground⟩ := groundEffects_exists_of_mem hstands.effects hf'
    have hf := htyped.effects f hf
    rcases List.mem_append.mp he' with harg | hrest
    · have hsubst : f'.args = f.args.map (Expr.substitute g.binding) := by
        have htarget := hground.target
        rw [Effect.target, Effect.target, Expr.substitute, Expr.substituteAll_eq] at htarget
        exact (Expr.fluent.inj htarget).2
      rw [hsubst] at harg
      obtain ⟨a, ha, rfl⟩ := List.mem_map.mp harg
      exact hf.target.ground_target hb a ha
    · rcases List.mem_pair.mp hrest with rfl | rfl
      · exact ground_of_typed hf.value hb hground.value
      · exact ground_of_typed hf.condition hb hground.condition

theorem goals_ground (h : G.Makes P R cs made) (hP : P.Built) :
    ∀ e ∈ R.problem.goals, e.Ground := by
  intro e' he'
  obtain ⟨e, he, hground⟩ := h.goals.exists_of_mem he'
  have hb : P.Respects .empty .empty := nofun
  exact ground_of_typed (hP.wellTyped.goals e he) hb hground

end Makes

end Grounder

/-! ## Metrics -/

namespace QualityMetric

def final? : QualityMetric → Option Expr
  | minimizeFinal e => some e
  | maximizeFinal e => some e
  | _ => none

/-- The expression for the final state has no free variables, and the cost of an action has none
but its parameters. -/
def ClosedFor (m : QualityMetric) (actions : List Action) : Prop :=
  (∀ e ∈ m.final?, e.freeVariables = []) ∧
    ∀ a ∈ actions, ∀ cost ∈ m.actionCost a.name, ∀ x ∈ cost.freeVariables,
      Parameter.binds a.parameters x = true

instance (m : QualityMetric) (actions : List Action) : Decidable (m.ClosedFor actions) :=
  inferInstanceAs (Decidable (_ ∧ _))

end QualityMetric

namespace Grounder

variable {V : Vocabulary} {facts : Option StaticFacts} {made : List Grounded}
  {m m' : QualityMetric} {e' : Expr}

/-- The expressions of a ground metric are made of the final expression of the metric, read without
a binding, and of the costs of actions, read under the binding of a ground action. -/
theorem exists_of_mem_groundMetric (h : groundMetric V facts made m = .ok m')
    (he' : e' ∈ m'.expressions) :
    (∃ e ∈ m.final?, groundExpr V facts .empty e = .ok e') ∨
      ∃ g ∈ made, ∃ cost ∈ m.actionCost g.origin.name,
        groundExpr V facts g.binding cost = .ok e' := by
  cases m with
  | planLength =>
    cases h
    cases he'
  | actionCosts costs default =>
    obtain ⟨costs', hcosts, ⟨⟩⟩ := bind_eq_ok.mp h
    rw [QualityMetric.expressions, Option.toList_none, List.append_nil] at he'
    obtain ⟨⟨name, _⟩, hentry, rfl⟩ := List.mem_map.mp he'
    obtain ⟨_, hcost, rfl⟩ := List.mem_filterMap.mp (SortedMap.mem_of_mem_ofList hentry)
    obtain ⟨g, hg, hground⟩ := exists_of_mem_mapM hcosts hcost
    obtain ⟨_, cost, hselected, hground⟩ := groundCost_eq_some hground
    exact .inr ⟨g, hg, cost, hselected, hground⟩
  | minimizeFinal e | maximizeFinal e =>
    obtain ⟨d, hd, ⟨⟩⟩ := bind_eq_ok.mp h
    obtain rfl := List.mem_singleton.mp he'
    exact .inl ⟨e, rfl, hd⟩

namespace Makes

variable {G : Grounder} {P : Problem} {R : CompilerResult} {cs : List Candidate}

theorem metrics_quantifierFree (h : G.Makes P R cs made) (hm' : m' ∈ R.problem.metrics)
    (he' : e' ∈ m'.expressions) : e'.hasQuantifier = false := by
  obtain ⟨m, _, hm⟩ := exists_left_of_forall₂ h.metrics_ground hm'
  rcases exists_of_mem_groundMetric hm he' with ⟨e, _, hground⟩ | ⟨g, _, cost, _, hground⟩
  · exact (within_of_groundExpr hground).hasQuantifier
  · exact (within_of_groundExpr hground).hasQuantifier

theorem metrics_closed (h : G.Makes P R cs made) (hP : P.Built)
    (hclosed : ∀ m ∈ P.metrics, m.ClosedFor P.actions) (hm' : m' ∈ R.problem.metrics)
    (he' : e' ∈ m'.expressions) : e'.Ground := by
  obtain ⟨m, hmem, hm⟩ := exists_left_of_forall₂ h.metrics_ground hm'
  obtain ⟨hfinal, hcosts⟩ := hclosed m hmem
  rcases exists_of_mem_groundMetric hm he' with ⟨e, he, hground⟩ | ⟨g, hg, cost, hcost, hground⟩
  · refine ((within_of_groundExpr hground).mono fun x hx => ?_).ground
    have hfree := Expr.mem_freeVariables.mpr hx.1
    rw [hfinal e he] at hfree
    cases hfree
  · refine ((within_of_groundExpr hground).mono fun x hx => ?_).ground
    have horigin := h.origin_mem hP.namesDistinct hg
    have hbinds := hcosts g.origin horigin cost hcost x (Expr.mem_freeVariables.mpr hx.1)
    have hargs := Vocabulary.checkArgs_eq_ok.mp (h.checkArguments_lifted hP.namesDistinct hg)
    have hsome := Binding.ofArgs_isSome hbinds hargs.length_eq
    change (g.binding x).isSome = true at hsome
    rw [hx.2] at hsome
    cases hsome

end Makes

/-! ## Problems -/

/-- What grounding answers for a built problem is ground: actions have no parameters, and in their
expressions and in goals there are no quantifiers and no variables. In metrics there are no
quantifiers, and no variables if there were none that nothing binds. -/
theorem ground_isGround {G : Grounder} {P : Problem} {R : CompilerResult} (hP : P.Built)
    (h : G.ground P = .ok R) :
    (∀ a ∈ R.problem.actions, a.parameters = [] ∧ ∀ e ∈ a.expressions, e.Ground) ∧
      (∀ e ∈ R.problem.goals, e.Ground) ∧
      (∀ m ∈ R.problem.metrics, ∀ e ∈ m.expressions, e.hasQuantifier = false) ∧
      ((∀ m ∈ P.metrics, m.ClosedFor P.actions) →
        ∀ m ∈ R.problem.metrics, ∀ e ∈ m.expressions, e.Ground) := by
  obtain ⟨cs, made, hmakes⟩ := makes_of_ground h
  refine ⟨fun a ha => ?_, hmakes.goals_ground hP, fun m hm e he => ?_, fun hclosed m hm e he => ?_⟩
  · rw [hmakes.actions] at ha
    obtain ⟨g, hg, rfl⟩ := List.mem_map.mp ha
    exact ⟨(hmakes.kept.stands g hg).parameters, hmakes.expressions_ground hP hg⟩
  · exact hmakes.metrics_quantifierFree hm he
  · exact hmakes.metrics_closed hP hclosed hm he

/-- The depot has quantifiers in a precondition, in a goal and in a metric, and six ways of
loading. -/
theorem ground_isGround_depot :
    ∃ R, (Examples.grounder true).ground Examples.depot = .ok R ∧
      R.problem.actions.length = 6 ∧ R.problem.metrics.length = 2 ∧
      (∀ a ∈ R.problem.actions, a.parameters = [] ∧ ∀ e ∈ a.expressions, e.Ground) ∧
      (∀ e ∈ R.problem.goals, e.Ground) ∧
      ∀ m ∈ R.problem.metrics, ∀ e ∈ m.expressions, e.Ground := by
  have hsizes : ((Examples.grounder true).ground Examples.depot).map
      (fun R => (R.problem.actions.length, R.problem.metrics.length)) = .ok (6, 2) := by
    decide +kernel
  have hclosed : ∀ m ∈ Examples.depot.metrics, m.ClosedFor Examples.depot.actions := by
    decide +kernel
  cases hR : (Examples.grounder true).ground Examples.depot with
  | error e =>
    rw [hR] at hsizes
    cases hsizes
  | ok R =>
    rw [hR] at hsizes
    obtain ⟨hactions, hmetrics⟩ := Prod.mk.inj (Except.ok.inj hsizes)
    obtain ⟨hground, hgoals, _, hvalues⟩ := ground_isGround Examples.depot_built hR
    exact ⟨R, rfl, hactions, hmetrics, hground, hgoals, hvalues hclosed⟩

end Grounder

end LiftedPlanning
