import LiftedPlanning.Rational

/-!
# Values

What an expression can evaluate to: a truth value, an exact number or the name of an object.
-/

namespace LiftedPlanning

inductive Value where
  | bool (b : Bool)
  | number (q : Rat)
  | object (name : String)
deriving DecidableEq

namespace Value

instance : Inhabited Value := ⟨bool false⟩

def ofInt (n : Int) : Value := number n

def text : Value → String
  | bool b => if b then "true" else "false"
  | number q => Rational.text q
  | object o => o

def json : Value → Json
  | bool b => .ofField "Bool" (.bool b)
  | number q => .ofField "Number" (Rational.json q)
  | object o => .ofField "Object" (.ofString o)

/-! ## Order -/

/-- Truth values come before numbers and numbers before objects; within a kind the order is that
of the kind. -/
def order : Value → Value → Ordering
  | bool a, bool b => compare a b
  | bool _, _ => .lt
  | number _, bool _ => .gt
  | number a, number b => Rational.order a b
  | number _, object _ => .lt
  | object a, object b => compare a b
  | object _, _ => .gt

instance : Ord Value := ⟨order⟩

instance : Std.LawfulEqCmp order where
  compare_self {a} := by
    cases a with
    | bool b => exact (Std.ReflCmp.compare_self : compare b b = .eq)
    | number q => exact (Std.ReflCmp.compare_self : Rational.order q q = .eq)
    | object o => exact (Std.ReflCmp.compare_self : compare o o = .eq)
  eq_of_compare {a b} h := by
    cases a <;> cases b <;> simp only [order, reduceCtorEq] at h
    · exact congrArg bool (Std.LawfulEqCmp.eq_of_compare h)
    · exact congrArg number (Std.LawfulEqCmp.eq_of_compare h)
    · exact congrArg object (Std.LawfulEqCmp.eq_of_compare h)

instance : Std.TransCmp order where
  eq_swap {a b} := by
    cases a <;> cases b <;> simp only [order, Ordering.swap_lt, Ordering.swap_gt]
    · exact Std.OrientedCmp.eq_swap
    · exact Std.OrientedCmp.eq_swap
    · exact Std.OrientedCmp.eq_swap
  isLE_trans {a b c} hab hbc := by
    cases a <;> cases b <;> simp only [order, Ordering.isLE, Bool.false_eq_true] at hab <;>
      cases c <;> simp only [order, Ordering.isLE, Bool.false_eq_true] at hbc ⊢
    · exact Std.TransCmp.isLE_trans hab hbc
    · exact Std.TransCmp.isLE_trans hab hbc
    · exact Std.TransCmp.isLE_trans hab hbc

instance : Std.LawfulEqOrd Value := inferInstanceAs (Std.LawfulEqCmp order)

instance : Std.TransOrd Value := inferInstanceAs (Std.TransCmp order)

end Value

end LiftedPlanning
