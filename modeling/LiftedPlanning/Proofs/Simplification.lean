import LiftedPlanning.Grounding.StaticFacts
import LiftedPlanning.Proofs.EvaluationFollows

/-!
# Simplification keeps values

In a state that gives the static fluents their initial values, an expression that has a value
keeps it when it is simplified (`StaticFacts.simplify_follows`). It may gain one: operands that
would have failed are folded away together with what decides beside them.

Every operator is folded once, after its operands, so each fold is treated on its own; the walk
through the expression is that of `Evaluates`.
-/

namespace LiftedPlanning

namespace Vocabulary

variable {exact : Prop} {V : Vocabulary} {s : State} {b : Binding}

/-! ## Junctions -/

theorem evaluateJunction_append (op : Junction) (es fs : List Expr) :
    V.evaluateJunction s b op (es ++ fs) =
      (do
        let p ← V.evaluateJunction s b op es
        if p = op.neutral then V.evaluateJunction s b op fs else return p) := by
  induction es with
  | nil => simp [evaluateJunction, bind, Except.bind]
  | cons e es ih =>
    rw [List.cons_append, evaluateJunction, evaluateJunction, ih, bind_assoc]
    refine bind_congr fun v => ?_
    rw [bind_assoc]
    refine bind_congr fun p => ?_
    by_cases hp : p = op.neutral
    · rw [if_pos hp, if_pos hp]
    · rw [if_neg hp, if_neg hp, pure_bind, if_neg hp]

/-- A junction inside a junction of the same kind may as well be written without its own
parentheses. -/
theorem evaluateJunction_flatten (op : Junction) (inner es : List Expr) :
    V.evaluateJunction s b op (.junction op inner :: es) =
      V.evaluateJunction s b op (inner ++ es) := by
  rw [evaluateJunction_append, evaluateJunction, evaluate, bind_assoc]
  exact bind_congr fun p => rfl

theorem evaluateJunction_gather {op : Junction} {es kept : List Expr}
    (h : Expr.gather op es = some kept) :
    V.evaluateJunction s b op es = V.evaluateJunction s b op kept := by
  fun_induction Expr.gather op es generalizing kept with
  | case1 =>
    cases h
    rfl
  | case2 es ih =>
    rw [← ih h, evaluateJunction, evaluate]
    exact if_pos rfl
  | case3 p es hp => cases h
  | case4 inner es ih =>
    obtain ⟨rest, hrest, rfl⟩ := Option.map_eq_some_iff.mp h
    rw [evaluateJunction_flatten, evaluateJunction_append, ih hrest, evaluateJunction_append]
  | case5 op' inner es hop ih =>
    obtain ⟨rest, hrest, rfl⟩ := Option.map_eq_some_iff.mp h
    rw [evaluateJunction, evaluateJunction, ih hrest]
  | case6 e es _ _ ih =>
    obtain ⟨rest, hrest, rfl⟩ := Option.map_eq_some_iff.mp h
    rw [evaluateJunction, evaluateJunction, ih hrest]

theorem evaluateJunction_cons_decided {op : Junction} {e : Expr} {es : List Expr}
    (h : ∀ p, V.evaluateJunction s b op es = .ok p → p = !op.neutral) {p : Bool}
    (hp : V.evaluateJunction s b op (e :: es) = .ok p) : p = !op.neutral := by
  rw [evaluateJunction] at hp
  obtain ⟨v, _, hp⟩ := bind_eq_ok.mp hp
  obtain ⟨q, _, hp⟩ := bind_eq_ok.mp hp
  split at hp
  · exact h p hp
  · next hq =>
    cases hp
    exact Bool.eq_not_of_ne hq

/-- A junction with a deciding constant among its operands has no other value than the decided
one: operands before the constant can only fail or decide alike. -/
theorem evaluateJunction_decided {op : Junction} {es : List Expr}
    (h : Expr.gather op es = none) :
    ∀ p, V.evaluateJunction s b op es = .ok p → p = !op.neutral := by
  fun_induction Expr.gather op es with
  | case1 => cases h
  | case2 es ih => exact fun _ => evaluateJunction_cons_decided (ih h)
  | case3 q es hq =>
    intro p hp
    rw [evaluateJunction, evaluate] at hp
    replace hp : (if q = op.neutral then _ else _) = Except.ok p := hp
    rw [if_neg hq] at hp
    cases hp
    exact Bool.eq_not_of_ne hq
  | case4 inner es ih =>
    exact fun _ => evaluateJunction_cons_decided (ih (Option.map_eq_none_iff.mp h))
  | case5 op' inner es hop ih =>
    exact fun _ => evaluateJunction_cons_decided (ih (Option.map_eq_none_iff.mp h))
  | case6 e es _ _ ih =>
    exact fun _ => evaluateJunction_cons_decided (ih (Option.map_eq_none_iff.mp h))

namespace Evaluates

theorem foldJunction (op : Junction) (es : List Expr) :
    V.Evaluates False s b b (.junction op es) (Expr.foldJunction op es) := by
  refine Follows.inexact_iff.mpr fun v hv => ⟨v, ?_, rfl⟩
  rw [evaluate] at hv
  obtain ⟨p, hp, hv⟩ := bind_eq_ok.mp hv
  cases hv
  unfold Expr.foldJunction
  split
  · next h => rw [evaluateJunction_decided h p hp, evaluate]
  · next h =>
    rw [evaluateJunction_gather h, evaluateJunction] at hp
    cases hp
    rw [evaluate]
  · next e h =>
    -- a single operand stands for itself, and its value is the truth value of the junction
    rw [evaluateJunction_gather h, evaluateJunction] at hp
    obtain ⟨v, hv, hp⟩ := bind_eq_ok.mp hp
    obtain ⟨q, hq, hp⟩ := bind_eq_ok.mp hp
    rw [evaluateJunction] at hp
    have hpq : q = p := by
      split at hp
      · next hn =>
        cases hp
        exact hn
      · cases hp
        rfl
    subst hpq
    cases v <;> cases hq
    exact hv
  · next h => rw [evaluate, ← evaluateJunction_gather h, hp]; rfl

/-! ## Other operators -/

theorem foldNot (e : Expr) : V.Evaluates exact s b b (.not e) (Expr.foldNot e) := by
  fun_cases Expr.foldNot e with
  | case1 p =>
    rw [Evaluates, evaluate, evaluate, evaluate]
    exact .refl _
  | case2 e => exact .refl _

theorem evaluateSeries_numbers {op : Series} {es : List Expr} {qs : List Rat}
    (h : Expr.numbers? es = some qs) (acc : Rat) :
    V.evaluateSeries s b op es acc = .ok (qs.foldl op.combine acc) := by
  fun_induction Expr.numbers? es generalizing qs acc with
  | case1 =>
    cases h
    rfl
  | case2 q es ih =>
    obtain ⟨rest, hrest, rfl⟩ := Option.map_eq_some_iff.mp h
    rw [Vocabulary.evaluateSeries, evaluate, List.foldl_cons]
    exact ih hrest _
  | case3 es _ _ => cases h

theorem foldSeries (op : Series) (es : List Expr) :
    V.Evaluates exact s b b (.series op es) (Expr.foldSeries op es) := by
  unfold Expr.foldSeries
  split
  · next q qs h =>
    rw [Evaluates, evaluate, evaluate, evaluateSeries_numbers h]
    exact .refl _
  · exact .refl _

theorem foldBinary (op : BinaryOp) (x y : Expr) :
    V.Evaluates False s b b (.binary op x y) (Expr.foldBinary op x y) := by
  refine Follows.inexact_iff.mpr fun v hv => ⟨v, ?_, rfl⟩
  fun_cases Expr.foldBinary op x y with
  | case1 y =>
    rw [evaluate, evaluate] at hv
    cases hv
    rw [evaluate]
  | case2 x _ =>
    -- whatever the premise is, it has a truth value, so the implication holds
    rw [evaluate] at hv
    obtain ⟨w, _, hv⟩ := bind_eq_ok.mp hv
    obtain ⟨p, _, hv⟩ := bind_eq_ok.mp hv
    rw [evaluate] at hv
    cases p <;> cases hv <;> rw [evaluate]
  | case3 y _ =>
    rw [evaluate, evaluate] at hv
    obtain ⟨w, hw, hv⟩ := bind_eq_ok.mp (show V.evaluate s b y >>= _ = .ok v from hv)
    obtain ⟨p, hp, hv⟩ := bind_eq_ok.mp hv
    cases w <;> cases hp
    cases hv
    exact hw
  | case4 x _ _ =>
    rw [evaluate] at hv
    rw [evaluate]
    obtain ⟨w, hw, hv⟩ := bind_eq_ok.mp hv
    obtain ⟨p, hp, hv⟩ := bind_eq_ok.mp hv
    rw [hw]
    show (asBool x w >>= fun p => _) = _
    rw [hp]
    rw [evaluate] at hv
    cases p <;> cases hv <;> rfl
  | case5 p q | case9 p q | case10 p q | case11 p q =>
    rw [evaluate, evaluate, evaluate] at hv
    rw [evaluate]
    exact hv
  | case6 p q | case7 p q | case8 p q =>
    rw [evaluate, evaluate, evaluate] at hv
    obtain rfl := Except.ok.inj hv
    simp [evaluate]
  | case12 q => exact hv
  | case13 q q' h =>
    rw [evaluate, evaluate, evaluate] at hv
    rw [evaluate]
    replace hv : (if q' = 0 then _ else _) = Except.ok v := hv
    rw [if_neg h] at hv
    exact hv
  | case14 op x y => exact hv

end Evaluates

theorem evaluateArgs_objects {es : List Expr} {os : List String} (h : Expr.objects? es = some os) :
    V.evaluateArgs s b es = .ok os := by
  fun_induction Expr.objects? es generalizing os with
  | case1 =>
    cases h
    rfl
  | case2 o es ih =>
    obtain ⟨rest, hrest, rfl⟩ := Option.map_eq_some_iff.mp h
    rw [evaluateArgs, evaluate, ih hrest]
    rfl
  | case3 es _ _ => cases h

end Vocabulary

/-! ## Static facts -/

namespace StaticFacts

/-- The facts hold in a state that gives every instance of a static fluent its initial value. -/
def HoldIn (F : StaticFacts) (s : State) : Prop :=
  ∀ i : FluentInstance, i.fluent ∈ F.statics → s.get? i = F.initial.get? i

variable {F : StaticFacts} {s : State}

open Vocabulary

/-- What a lasting value was read from. -/
theorem value?_eq_some {f : String} {args : List Expr} {v : Value}
    (h : F.value? f args = some v) :
    ∃ os, f ∈ F.statics ∧ Expr.objects? args = some os ∧
      F.vocabulary.instanceOf f os = .ok ⟨f, os⟩ ∧
      F.vocabulary.value F.initial ⟨f, os⟩ = .ok v := by
  unfold value? at h
  split at h
  · next hstatic =>
    split at h
    · next os hos =>
      split at h
      · next w hw =>
        cases h
        obtain ⟨i, hi, hvalue⟩ := bind_eq_ok.mp hw
        have hinstance := hi
        obtain ⟨_, _, ⟨⟩⟩ := bind_eq_ok.mp hi
        exact ⟨os, by simpa using hstatic, hos, hinstance, hvalue⟩
      · cases h
    · cases h
  · cases h

/-- A lasting value is the value in every state in which the facts hold. -/
theorem foldFluent_follows {exact : Prop} (hF : F.HoldIn s) (b : Binding) (f : String)
    (args : List Expr) :
    F.vocabulary.Evaluates exact s b b (.fluent f args) (F.foldFluent f args) := by
  unfold foldFluent
  split
  · next v hv =>
    obtain ⟨os, hstatic, hos, hinstance, hvalue⟩ := value?_eq_some hv
    have hlasting : F.vocabulary.value s ⟨f, os⟩ = .ok v := by
      rw [Vocabulary.value, hF ⟨f, os⟩ hstatic]
      exact hvalue
    have heval : F.vocabulary.evaluate s b (.fluent f args) = .ok v := by
      rw [evaluate, evaluateArgs_objects hos]
      show F.vocabulary.instanceOf f os >>= _ = _
      rw [hinstance]
      exact hlasting
    rw [Evaluates, heval, evaluate]
    exact .refl _
  · exact .refl _

/-- An expression that has a value keeps it when it is simplified. -/
theorem simplify_follows (hF : F.HoldIn s) (b : Binding) (e : Expr) :
    F.vocabulary.Evaluates False s b b e (F.simplify e) := by
  induction e generalizing b with
  | const v => exact .refl _
  | var x => exact .refl _
  | fluent f args ih =>
    rw [simplify, simplifyAll_eq]
    exact (Evaluates.fluent f (forall₂_map_right fun a ha => ih a ha b)).trans
      (foldFluent_follows hF b f _)
  | not e ih => exact (Evaluates.not (ih b)).trans (Evaluates.foldNot _)
  | junction op es ih =>
    rw [simplify, simplifyAll_eq]
    exact (Evaluates.junction op (forall₂_map_right fun e he => ih e he b)).trans
      (Evaluates.foldJunction op _)
  | series op es ih =>
    rw [simplify, simplifyAll_eq]
    exact (Evaluates.series op (forall₂_map_right fun e he => ih e he b)).trans
      (Evaluates.foldSeries op _)
  | binary op x y ihx ihy =>
    exact (Evaluates.binary op (ihx b) (ihy b)).trans (Evaluates.foldBinary op _ _)
  | quantified q vars body ih =>
    exact Evaluates.quantified q vars fun _ _ _ _ => ih _

end StaticFacts

end LiftedPlanning
