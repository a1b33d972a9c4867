import LiftedPlanning.Evaluation
import LiftedPlanning.Proofs.Outcome

/-!
# Evaluation follows operand by operand

If the evaluation of every operand is followed, so is the evaluation of the whole expression: one
lemma for each operator (`Evaluates.fluent`, `Evaluates.junction`, …). Substitution, quantifier
expansion and simplification all rebuild expressions operator by operator, so their proofs only
have to say what they do besides.
-/

namespace LiftedPlanning

/-! ## Scans -/

theorem scan_follows {ε α β : Type} [Kinded ε] {exact : Prop} {stop : Bool}
    {f : α → Except ε Bool} {g : β → Except ε Bool} {xs : List α} {ys : List β}
    (h : List.Forall₂ (fun x y => Follows exact (· = ·) (f x) (g y)) xs ys) :
    Follows exact (· = ·) (scan stop f xs) (scan stop g ys) := by
  induction h with
  | nil => exact .refl _
  | cons hxy _ ih =>
    rw [scan, scan]
    refine hxy.bind_same fun p => ?_
    split
    · exact .refl _
    · exact ih

namespace Vocabulary

/-- A junction scans its operands for one that decides. -/
theorem evaluateJunction_eq_scan (V : Vocabulary) (s : State) (b : Binding) (op : Junction)
    (es : List Expr) :
    V.evaluateJunction s b op es =
      scan (!op.neutral) (fun e => do asBool e (← V.evaluate s b e)) es := by
  induction es with
  | nil => simp [evaluateJunction, scan]
  | cons e es ih =>
    rw [evaluateJunction, scan, ih, bind_assoc]
    refine bind_congr fun v => bind_congr fun p => ?_
    cases p <;> cases op.neutral <;> rfl

/-- The evaluation of `e` in a state is followed by that of `e'`, each under its own binding. -/
def Evaluates (exact : Prop) (V : Vocabulary) (s : State) (b c : Binding) (e e' : Expr) : Prop :=
  Follows exact (· = ·) (V.evaluate s b e) (V.evaluate s c e')

/-! ## Reading values

Errors name the expression whose value is of the wrong kind, so they agree in kind only. -/

section Reading

variable {exact : Prop}

theorem asBool_follows (e e' : Expr) (v : Value) :
    Follows exact (· = ·) (asBool e v) (asBool e' v) := by
  cases v with
  | bool p => exact rfl
  | number q => exact fun _ => rfl
  | object o => exact fun _ => rfl

theorem asNumber_follows (e e' : Expr) (v : Value) :
    Follows exact (· = ·) (asNumber e v) (asNumber e' v) := by
  cases v with
  | bool p => exact fun _ => rfl
  | number q => exact rfl
  | object o => exact fun _ => rfl

theorem asObject_follows (e e' : Expr) (v : Value) :
    Follows exact (· = ·) (asObject e v) (asObject e' v) := by
  cases v with
  | bool p => exact fun _ => rfl
  | number q => exact fun _ => rfl
  | object o => exact rfl

end Reading

/-! ## Operators -/

namespace Evaluates

variable {exact : Prop} {V : Vocabulary} {s : State} {b c : Binding} {x x' y y' : Expr}
  {es es' : List Expr}

theorem holds (h : V.Evaluates exact s b c x x') :
    Follows exact (· = ·) (V.holds s b x) (V.holds s c x') :=
  h.bind_same fun v => asBool_follows x x' v

theorem args (h : List.Forall₂ (V.Evaluates exact s b c) es es') :
    Follows exact (· = ·) (V.evaluateArgs s b es) (V.evaluateArgs s c es') := by
  induction h with
  | nil => exact .refl _
  | cons hx _ ih =>
    show Follows exact (· = ·) (V.evaluate s b _ >>= _) (V.evaluate s c _ >>= _)
    refine hx.bind_same fun v => (asObject_follows _ _ v).bind_same fun o => ?_
    exact ih.bind_same fun os => .refl _

theorem fluent (f : String) (h : List.Forall₂ (V.Evaluates exact s b c) es es') :
    V.Evaluates exact s b c (.fluent f es) (.fluent f es') := by
  show Follows exact (· = ·) (V.evaluateArgs s b es >>= _) (V.evaluateArgs s c es' >>= _)
  exact (args h).bind_same fun os => .refl _

theorem not (h : V.Evaluates exact s b c x x') : V.Evaluates exact s b c (.not x) (.not x') := by
  show Follows exact (· = ·) (V.evaluate s b x >>= _) (V.evaluate s c x' >>= _)
  exact h.bind_same fun v => (asBool_follows x x' v).bind_same fun p => .refl _

theorem junction (op : Junction) (h : List.Forall₂ (V.Evaluates exact s b c) es es') :
    V.Evaluates exact s b c (.junction op es) (.junction op es') := by
  show Follows exact (· = ·) (V.evaluateJunction s b op es >>= _)
    (V.evaluateJunction s c op es' >>= _)
  rw [evaluateJunction_eq_scan, evaluateJunction_eq_scan]
  refine Follows.bind_same (scan_follows ?_) fun p => .refl _
  exact h.imp fun _ _ hx => hx.holds

theorem evaluateSeries (op : Series) (h : List.Forall₂ (V.Evaluates exact s b c) es es')
    (acc : Rat) :
    Follows exact (· = ·) (V.evaluateSeries s b op es acc) (V.evaluateSeries s c op es' acc) := by
  induction h generalizing acc with
  | nil => exact .refl _
  | cons hx _ ih =>
    show Follows exact (· = ·) (V.evaluate s b _ >>= _) (V.evaluate s c _ >>= _)
    exact hx.bind_same fun v => (asNumber_follows _ _ v).bind_same fun q => ih _

theorem series (op : Series) (h : List.Forall₂ (V.Evaluates exact s b c) es es') :
    V.Evaluates exact s b c (.series op es) (.series op es') := by
  show Follows exact (· = ·) (V.evaluateSeries s b op es _ >>= _)
    (V.evaluateSeries s c op es' _ >>= _)
  exact (evaluateSeries op h _).bind_same fun q => .refl _

theorem binary (op : BinaryOp) (hx : V.Evaluates exact s b c x x')
    (hy : V.Evaluates exact s b c y y') :
    V.Evaluates exact s b c (.binary op x y) (.binary op x' y') := by
  cases op with
  | implies =>
    show Follows exact (· = ·) (V.evaluate s b x >>= _) (V.evaluate s c x' >>= _)
    refine hx.bind_same fun v => (asBool_follows x x' v).bind_same fun p => ?_
    cases p with
    | true => exact hy.bind_same fun w => (asBool_follows y y' w).bind_same fun q => .refl _
    | false => exact .refl _
  | iff =>
    show Follows exact (· = ·) (V.evaluate s b x >>= _) (V.evaluate s c x' >>= _)
    refine hx.bind_same fun v => (asBool_follows x x' v).bind_same fun p => ?_
    exact hy.bind_same fun w => (asBool_follows y y' w).bind_same fun q => .refl _
  | equals =>
    show Follows exact (· = ·) (V.evaluate s b x >>= _) (V.evaluate s c x' >>= _)
    exact hx.bind_same fun v => hy.bind_same fun w => .refl _
  | le =>
    show Follows exact (· = ·) (V.evaluate s b x >>= _) (V.evaluate s c x' >>= _)
    refine hx.bind_same fun v => (asNumber_follows x x' v).bind_same fun p => ?_
    exact hy.bind_same fun w => (asNumber_follows y y' w).bind_same fun q => .refl _
  | lt =>
    show Follows exact (· = ·) (V.evaluate s b x >>= _) (V.evaluate s c x' >>= _)
    refine hx.bind_same fun v => (asNumber_follows x x' v).bind_same fun p => ?_
    exact hy.bind_same fun w => (asNumber_follows y y' w).bind_same fun q => .refl _
  | minus =>
    show Follows exact (· = ·) (V.evaluate s b x >>= _) (V.evaluate s c x' >>= _)
    refine hx.bind_same fun v => (asNumber_follows x x' v).bind_same fun p => ?_
    exact hy.bind_same fun w => (asNumber_follows y y' w).bind_same fun q => .refl _
  | div =>
    show Follows exact (· = ·) (V.evaluate s b y >>= _) (V.evaluate s c y' >>= _)
    refine hy.bind_same fun w => (asNumber_follows y y' w).bind_same fun q => ?_
    split
    · exact fun _ => rfl
    · exact hx.bind_same fun v => (asNumber_follows x x' v).bind_same fun p => .refl _

/-- Both quantifiers have the same variables, so they run over the same tuples. -/
theorem quantified (q : Quantifier) (vars : List Parameter)
    (h : ∀ ds, V.domains vars = .ok ds → ∀ os ∈ tuples ds,
      V.Evaluates exact s (b.setAll vars os) (c.setAll vars os) x x') :
    V.Evaluates exact s b c (.quantified q vars x) (.quantified q vars x') := by
  show Follows exact (· = ·) (V.domains vars >>= _) (V.domains vars >>= _)
  cases hds : V.domains vars with
  | error e => exact .refl _
  | ok ds =>
    show Follows exact _ (scanTuples _ _ ds >>= _) (scanTuples _ _ ds >>= _)
    rw [scanTuples_eq, scanTuples_eq]
    refine Follows.bind_same (scan_follows ?_) fun p => .refl _
    exact List.forall₂_same.mpr fun os hos => (h ds hds os hos).holds

end Evaluates

end Vocabulary

end LiftedPlanning
