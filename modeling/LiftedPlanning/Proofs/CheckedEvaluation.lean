import LiftedPlanning.Proofs.EvaluationFollows
import LiftedPlanning.Proofs.WellFormedness

/-!
# Evaluation of checked expressions

A checked expression is evaluated under a binding that respects its scope. Then every look-up
succeeds: variables are bound, fluents and objects are declared, and arguments have the right number
and fit. What is left to fail are the values that are met: one may be undefined or of the wrong
kind, and a denominator may be zero (`Problem.evaluate_of_checkExpr`).

The argument of a fluent is a variable of a type that fits, bound to an object of a subtype; that
the object fits as well is transitivity of compatibility.
-/

namespace LiftedPlanning

/-- The failures that come from values, and not from the way in which an expression is made up. -/
inductive ModelError.OfValues : ModelError → Prop where
  | undefinedValue (i : FluentInstance) : OfValues (.undefinedValue i)
  | notBoolean (e : Expr) : OfValues (.notBoolean e)
  | notNumeric (e : Expr) : OfValues (.notNumeric e)
  | divisionByZero (e : Expr) : OfValues (.divisionByZero e)

namespace Vocabulary

open ModelError (OfValues)

variable {V : Vocabulary} {scope : Scope} {s : State} {b : Binding}

/-! ## Reading values -/

theorem asBool_failsOnly (e : Expr) (v : Value) : FailsOnly OfValues (asBool e v) := by
  cases v with
  | bool p => exact .ok p
  | number q => exact .error (.notBoolean e)
  | object o => exact .error (.notBoolean e)

theorem asNumber_failsOnly (e : Expr) (v : Value) : FailsOnly OfValues (asNumber e v) := by
  cases v with
  | bool p => exact .error (.notNumeric e)
  | number q => exact .ok q
  | object o => exact .error (.notNumeric e)

theorem value_failsOnly (s : State) (i : FluentInstance) {f : Fluent}
    (hf : V.fluent i.fluent = .ok f) : FailsOnly OfValues (V.value s i) := by
  unfold value
  cases s.get? i with
  | some v => exact .ok v
  | none =>
    refine (FailsOnly.of_total ⟨f, hf⟩).bind fun f _ => ?_
    split
    · exact .ok _
    · exact .error (.undefinedValue i)

/-! ## Arguments -/

/-- Arguments that fit denote objects that fit. -/
theorem evaluateArgs_of_fits (s : State) (hV : V.types.InOrder) (hb : V.Respects scope b)
    {params : List Parameter} {args : List Expr}
    (h : List.Forall₂ (V.ArgFits scope) params args) :
    ∃ os, V.evaluateArgs s b args = .ok os ∧ List.Forall₂ V.Fits params os := by
  induction h with
  | nil => exact ⟨[], rfl, .nil⟩
  | @cons p arg params args harg _ ih =>
    obtain ⟨os, hos, hfits⟩ := ih
    have hhead : ∃ o, V.evaluate s b arg = .ok (.object o) ∧ V.Fits p o := by
      cases harg with
      | @var x t ht hcompatible =>
        obtain ⟨o, ho, ob, hob, hsub⟩ := hb x t ht
        refine ⟨o, ?_, ob, hob, hV.isCompatible_trans hsub hcompatible⟩
        rw [evaluate, ho]
      | @object o hfit => exact ⟨o, by rw [evaluate], hfit⟩
    obtain ⟨o, ho, hfit⟩ := hhead
    refine ⟨o :: os, ?_, .cons hfit hfits⟩
    rw [evaluateArgs, ho, hos]
    rfl

theorem instanceOf_of_fits {f : String} {fl : Fluent} (hfl : V.fluent f = .ok fl)
    {os : List String} (hos : List.Forall₂ V.Fits fl.signature os) :
    V.instanceOf f os = .ok ⟨f, os⟩ := by
  have hinstance : V.checkInstance ⟨f, os⟩ = .ok () := by
    rw [checkInstance, hfl]
    exact checkArgs_eq_ok.mpr hos
  rw [instanceOf, hinstance]
  rfl

/-! ## Operators -/

section Operators

variable {x y : Expr} {es : List Expr}

theorem holds_failsOnly (hx : FailsOnly OfValues (V.evaluate s b x)) :
    FailsOnly OfValues (V.holds s b x) :=
  hx.bind fun v _ => asBool_failsOnly x v

/-- A number that is asked for, and what is done with it. -/
theorem withNumber_failsOnly {α : Type} {f : Rat → Except ModelError α}
    (hx : FailsOnly OfValues (V.evaluate s b x)) (hf : ∀ q, FailsOnly OfValues (f q)) :
    FailsOnly OfValues (V.evaluate s b x >>= fun v => asNumber x v >>= f) :=
  hx.bind fun v _ => (asNumber_failsOnly x v).bind fun q _ => hf q

/-- A truth value that is asked for, and what is done with it. -/
theorem withBool_failsOnly {α : Type} {f : Bool → Except ModelError α}
    (hx : FailsOnly OfValues (V.evaluate s b x)) (hf : ∀ p, FailsOnly OfValues (f p)) :
    FailsOnly OfValues (V.evaluate s b x >>= fun v => asBool x v >>= f) :=
  hx.bind fun v _ => (asBool_failsOnly x v).bind fun p _ => hf p

theorem evaluateSeries_failsOnly (op : Series)
    (h : ∀ e ∈ es, FailsOnly OfValues (V.evaluate s b e)) (acc : Rat) :
    FailsOnly OfValues (V.evaluateSeries s b op es acc) := by
  induction es generalizing acc with
  | nil => exact .ok acc
  | cons e es ih =>
    obtain ⟨he, hes⟩ := List.forall_mem_cons.mp h
    rw [evaluateSeries]
    exact withNumber_failsOnly he fun q => ih hes _

theorem evaluateBinary_failsOnly (op : BinaryOp) (hx : FailsOnly OfValues (V.evaluate s b x))
    (hy : FailsOnly OfValues (V.evaluate s b y)) :
    FailsOnly OfValues (V.evaluate s b (.binary op x y)) := by
  cases op with
  | implies =>
    rw [evaluate]
    refine withBool_failsOnly hx fun p => ?_
    cases p with
    | true => exact withBool_failsOnly hy fun q => .ok _
    | false => exact .ok _
  | iff =>
    rw [evaluate]
    exact withBool_failsOnly hx fun p => withBool_failsOnly hy fun q => .ok _
  | equals =>
    rw [evaluate]
    exact hx.bind fun v _ => hy.bind fun w _ => .ok _
  | le =>
    rw [evaluate]
    exact withNumber_failsOnly hx fun p => withNumber_failsOnly hy fun q => .ok _
  | lt =>
    rw [evaluate]
    exact withNumber_failsOnly hx fun p => withNumber_failsOnly hy fun q => .ok _
  | minus =>
    rw [evaluate]
    exact withNumber_failsOnly hx fun p => withNumber_failsOnly hy fun q => .ok _
  | div =>
    rw [evaluate]
    refine withNumber_failsOnly hy fun q => ?_
    split
    · exact .error (.divisionByZero _)
    · exact withNumber_failsOnly hx fun p => .ok _

end Operators

/-! ## Expressions -/

/-- Under a binding that respects the scope, a typed expression fails only on values. -/
theorem Typed.evaluate_failsOnly (hV : V.types.InOrder) (hobjects : V.ObjectsDistinct) {e : Expr}
    (h : V.Typed scope e) (hb : V.Respects scope b) (s : State) :
    FailsOnly OfValues (V.evaluate s b e) := by
  induction h generalizing b with
  | @const scope v _ =>
    rw [evaluate]
    exact .ok v
  | @var scope x t ht =>
    obtain ⟨o, ho, _⟩ := hb x t ht
    rw [evaluate, ho]
    exact .ok _
  | @fluent scope f args fl hfl hargs =>
    obtain ⟨os, hos, hfits⟩ := evaluateArgs_of_fits s hV hb hargs
    rw [evaluate, hos]
    show FailsOnly OfValues (V.instanceOf f os >>= fun i => V.value s i)
    rw [instanceOf_of_fits hfl hfits]
    exact value_failsOnly s ⟨f, os⟩ hfl
  | not _ ih =>
    rw [evaluate]
    exact withBool_failsOnly (ih hb) fun p => .ok _
  | @junction scope op es _ ih =>
    rw [evaluate, evaluateJunction_eq_scan]
    refine FailsOnly.bind (FailsOnly.scan fun e he => ?_) fun p _ => .ok _
    exact holds_failsOnly (ih e he hb)
  | series _ ih =>
    rw [evaluate]
    exact (evaluateSeries_failsOnly _ (fun e he => ih e he hb) _).bind fun q _ => .ok _
  | binary _ _ iha ihb => exact evaluateBinary_failsOnly _ (iha hb) (ihb hb)
  | @quantified scope q vars body hvars _ ih =>
    obtain ⟨ds, hds⟩ := domains_of_declares hvars
    rw [evaluate, hds]
    show FailsOnly OfValues (scanTuples _ _ ds >>= _)
    rw [scanTuples_eq]
    -- every tuple that is tried keeps the binding in accord with the larger scope
    refine FailsOnly.bind (FailsOnly.scan fun os hos => ?_) fun p _ => .ok _
    have hrespects := hb.setAll (fits_of_mem_tuples hobjects hds hos)
    exact holds_failsOnly (ih hrespects)

end Vocabulary

/-! ## Problems -/

/-- What a built problem accepts cannot go structurally wrong. Under accepted arguments for a
parameter list, in which names may repeat, and in any state, reachable or not, an expression that
passed the check for these parameters has a value, or a value that was met stands in the way. -/
theorem Problem.evaluate_of_checkExpr {P : Problem} (hP : P.Built) {item : String}
    {scope : List Parameter} {args : List String} (hargs : P.checkArgs item scope args = .ok ())
    {e : Expr} (he : P.checkExpr (.ofParams scope) e = .ok ()) (s : State) :
    (∃ v, P.evaluate s (.ofArgs scope args) e = .ok v) ∨
      ∃ err, P.evaluate s (.ofArgs scope args) e = .error err ∧ err.OfValues := by
  have htyped : P.Typed (.ofParams scope) e := Vocabulary.checkExpr_eq_ok.mp he
  have hrespects : P.Respects (.ofParams scope) (.ofArgs scope args) :=
    Vocabulary.respects_ofArgs (Vocabulary.checkArgs_eq_ok.mp hargs)
  have hfails := htyped.evaluate_failsOnly hP.wellTyped.vocabulary.types hP.namesDistinct.objects
    hrespects s
  cases h : P.evaluate s (.ofArgs scope args) e with
  | ok v => exact .inl ⟨v, rfl⟩
  | error err => exact .inr ⟨err, rfl, hfails err h⟩

/-- The name `x` is given twice, first to the crate and then to the truck, which is a thing but not
declared as one. The truck has no weight. -/
theorem Problem.evaluate_of_checkExpr_depot :
    let scope : List Parameter := [⟨"x", "thing"⟩, ⟨"x", "vehicle"⟩]
    let weight : Expr := .fluent "weight" [.var "x"]
    Examples.depot.evaluate Examples.depot.initialState (.ofArgs scope ["crate", "truck"]) weight =
        .error (.undefinedValue ⟨"weight", ["truck"]⟩) ∧
      ModelError.OfValues (.undefinedValue ⟨"weight", ["truck"]⟩) := by
  intro scope weight
  have hargs : Examples.depot.checkArgs "load" scope ["crate", "truck"] = .ok () := by
    decide +kernel
  have hweight : Examples.depot.checkExpr (.ofParams scope) weight = .ok () := by decide +kernel
  have hundefined : Examples.depot.evaluate Examples.depot.initialState
      (.ofArgs scope ["crate", "truck"]) weight =
        .error (.undefinedValue ⟨"weight", ["truck"]⟩) := by
    decide +kernel
  rcases evaluate_of_checkExpr Examples.depot_built hargs hweight Examples.depot.initialState with
    ⟨v, hv⟩ | ⟨err, herr, hvalues⟩
  · cases hv.symm.trans hundefined
  · obtain rfl := Except.error.inj (herr.symm.trans hundefined)
    exact ⟨hundefined, hvalues⟩

end LiftedPlanning
