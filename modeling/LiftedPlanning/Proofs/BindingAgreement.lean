import LiftedPlanning.Proofs.Building
import LiftedPlanning.Proofs.Expansion

/-!
# Bindings that agree

An expression is evaluated alike under two bindings that agree on its free variables: they give each
of them the same object, or neither gives it any. The outcome is the same value, or the same failure
with all that it names (`Vocabulary.evaluate_of_agree`).

The two evaluations are run side by side. Operators pass the same bindings on to their operands, so
equal outcomes of the operands are all that they need. A quantifier puts the same objects on top of
both bindings; then these agree on what it binds as well (`Binding.setAll_eq_of_agree`).
-/

namespace LiftedPlanning

/-- Under a quantifier two bindings need to agree only on what it does not bind. -/
theorem Binding.setAll_eq_of_agree {b c : Binding} {vars : List Parameter} {os : List String}
    {x : String} (hlen : vars.length = os.length)
    (h : Parameter.binds vars x = false → b x = c x) : b.setAll vars os x = c.setAll vars os x := by
  rw [setAll_eq_overlay, setAll_eq_overlay c, overlay, overlay]
  by_cases hx : Parameter.binds vars x = true
  · obtain ⟨o, ho⟩ := Option.isSome_iff_exists.mp (ofArgs_isSome hx hlen)
    rw [ho]
    rfl
  · rw [h (Bool.eq_false_iff.mpr hx)]

namespace Vocabulary

/-! ## Operators -/

section Operators

variable {V : Vocabulary} {s : State} {b c : Binding} {x y : Expr} {es : List Expr}

theorem evaluateArgs_congr (h : ∀ e ∈ es, V.evaluate s b e = V.evaluate s c e) :
    V.evaluateArgs s b es = V.evaluateArgs s c es := by
  induction es with
  | nil => rfl
  | cons e es ih =>
    obtain ⟨he, hes⟩ := List.forall_mem_cons.mp h
    rw [evaluateArgs, evaluateArgs, he, ih hes]

theorem evaluateJunction_congr (op : Junction)
    (h : ∀ e ∈ es, V.evaluate s b e = V.evaluate s c e) :
    V.evaluateJunction s b op es = V.evaluateJunction s c op es := by
  rw [evaluateJunction_eq_scan, evaluateJunction_eq_scan]
  apply scan_congr
  intro e he
  rw [h e he]

theorem evaluateSeries_congr (op : Series)
    (h : ∀ e ∈ es, V.evaluate s b e = V.evaluate s c e) (acc : Rat) :
    V.evaluateSeries s b op es acc = V.evaluateSeries s c op es acc := by
  induction es generalizing acc with
  | nil => rfl
  | cons e es ih =>
    obtain ⟨he, hes⟩ := List.forall_mem_cons.mp h
    rw [evaluateSeries, evaluateSeries, he]
    simp only [ih hes]

theorem evaluate_binary_congr (op : BinaryOp) (hx : V.evaluate s b x = V.evaluate s c x)
    (hy : V.evaluate s b y = V.evaluate s c y) :
    V.evaluate s b (.binary op x y) = V.evaluate s c (.binary op x y) := by
  cases op <;> simp only [evaluate, hx, hy]

theorem evaluate_quantified_congr (q : Quantifier) (vars : List Parameter)
    (h : ∀ os, vars.length = os.length →
      V.evaluate s (b.setAll vars os) x = V.evaluate s (c.setAll vars os) x) :
    V.evaluate s b (.quantified q vars x) = V.evaluate s c (.quantified q vars x) := by
  rw [evaluate, evaluate]
  cases hds : V.domains vars with
  | error err => rfl
  | ok ds =>
    show (scanTuples _ _ ds >>= _) = (scanTuples _ _ ds >>= _)
    rw [scanTuples_eq, scanTuples_eq]
    congr 1
    apply scan_congr
    intro os hos
    rw [h os (length_of_mem_tuples_domains hds hos)]

end Operators

/-! ## Expressions -/

/-- Bindings that agree on the free variables of an expression, where they bind them and where they
do not, make no difference to its evaluation: it has the same value, or fails with the same error.
What they say of variables that are bound by quantifiers, or do not occur, is of no account. -/
theorem evaluate_of_agree {V : Vocabulary} {s : State} {b c : Binding} {e : Expr}
    (h : ∀ x ∈ e.freeVariables, b x = c x) : V.evaluate s b e = V.evaluate s c e := by
  simp only [Expr.mem_freeVariables] at h
  have hall {b c : Binding} {es : List Expr}
      (ih : ∀ e ∈ es, ∀ {b c : Binding}, (∀ x ∈ e.freeOccurrences, b x = c x) →
        V.evaluate s b e = V.evaluate s c e)
      (h : ∀ x ∈ Expr.freeOccurrencesOfAll es, b x = c x) :
      ∀ e ∈ es, V.evaluate s b e = V.evaluate s c e := by
    intro e he
    apply ih e he
    intro x hx
    apply h
    rw [Expr.freeOccurrencesOfAll_eq]
    exact List.mem_flatMap.mpr ⟨e, he, hx⟩
  induction e generalizing b c with
  | const v => rfl
  | var x => rw [evaluate, evaluate, h x (List.mem_singleton_self x)]
  | fluent f args ih => rw [evaluate, evaluate, evaluateArgs_congr (hall ih h)]
  | not e ih => rw [evaluate, evaluate, ih h]
  | junction op es ih => rw [evaluate, evaluate, evaluateJunction_congr op (hall ih h)]
  | series op es ih => rw [evaluate, evaluate, evaluateSeries_congr op (hall ih h)]
  | binary op x y ihx ihy =>
    apply evaluate_binary_congr
    · exact ihx fun z hz => h z (List.mem_append_left _ hz)
    · exact ihy fun z hz => h z (List.mem_append_right _ hz)
  | quantified q vars body ih =>
    apply evaluate_quantified_congr
    intro os hlen
    apply ih
    intro x hx
    apply Binding.setAll_eq_of_agree hlen
    intro hbinds
    exact h x (List.mem_filter.mpr ⟨hx, by simp [hbinds]⟩)

/-- The bindings differ in `y`, which only a quantifier uses, and neither binds `z`. Some vehicle is
heavier than the crate, so that `z` is not asked for in a disjunction, but it is in a
conjunction. -/
theorem evaluate_of_agree_depot :
    let P := Examples.depot
    let b : Binding := .ofPairs [("x", "crate"), ("y", "truck")]
    let c : Binding := .ofPairs [("x", "crate"), ("y", "crane")]
    let weight (x : String) : Expr := .fluent "weight" [.var x]
    let heavier : Expr := .quantified .existential [⟨"y", "vehicle"⟩]
      (.binary .lt (weight "x") (weight "y"))
    let e (op : Junction) : Expr := .junction op [heavier, .fluent "on" [.var "x", .var "z"]]
    (∀ op, ∀ x ∈ (e op).freeVariables, b x = c x) ∧ b "y" ≠ c "y" ∧
      P.evaluate P.initialState b (e .or) = .ok (.bool true) ∧
      P.evaluate P.initialState c (e .or) = .ok (.bool true) ∧
      P.evaluate P.initialState b (e .and) = .error (.unboundVariable "z") ∧
      P.evaluate P.initialState c (e .and) = .error (.unboundVariable "z") := by
  intro P b c weight heavier e
  have hagree : ∀ op, ∀ x ∈ (e op).freeVariables, b x = c x := by
    intro op x hx
    rw [Expr.mem_freeVariables] at hx
    have hall : ∀ x ∈ (e op).freeOccurrences, b x = c x := by
      cases op <;> decide +kernel
    exact hall x hx
  have hor : P.evaluate P.initialState b (e .or) = .ok (.bool true) := by decide +kernel
  have hand : P.evaluate P.initialState b (e .and) = .error (.unboundVariable "z") := by
    decide +kernel
  refine ⟨hagree, by decide +kernel, hor, ?_, hand, ?_⟩
  · rw [← evaluate_of_agree (hagree .or), hor]
  · rw [← evaluate_of_agree (hagree .and), hand]

end Vocabulary

end LiftedPlanning
