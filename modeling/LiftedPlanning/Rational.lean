import LiftedPlanning.Json.Basic

/-!
# Rational numbers

Numeric fluents hold exact rationals. This module adds to them what planning needs beyond
arithmetic: a three-way order, the text in which numbers are shown, and their JSON form, in which
numerator and denominator are written as a sign and the digits to base 2³².
-/

namespace LiftedPlanning.Rational

/-! ## Order -/

def order (a b : Rat) : Ordering := compareOfLessAndEq a b

theorem order_eq_eq {a b : Rat} : order a b = .eq ↔ a = b :=
  compareOfLessAndEq_eq_eq (fun _ => Rat.le_refl) Rat.not_le

theorem order_isLE {a b : Rat} : (order a b).isLE ↔ a ≤ b :=
  isLE_compareOfLessAndEq Rat.le_antisymm Rat.not_le (fun _ _ => Rat.le_total)

instance : Std.LawfulEqCmp order where
  compare_self := order_eq_eq.mpr rfl
  eq_of_compare := order_eq_eq.mp

instance : Std.TransCmp order where
  eq_swap := compareOfLessAndEq_eq_swap Rat.le_antisymm (fun _ _ => Rat.le_total) Rat.not_le
  isLE_trans := by
    intro a b c hab hbc
    exact order_isLE.mpr (Rat.le_trans (order_isLE.mp hab) (order_isLE.mp hbc))

/-! ## Text -/

/-- An integer is shown as itself, any other number as a reduced fraction. -/
def text (q : Rat) : String :=
  if q.den = 1 then toString q.num else toString q.num ++ "/" ++ toString q.den

/-- The number `n / d` with the sign moved to the numerator, unless `d` is zero. -/
def ofFraction? (n d : Int) : Option Rat :=
  if d = 0 then none else some (Rat.divInt n d)

/-! ## JSON -/

/-- 2³², the base in which numbers are written digit by digit. -/
def digitBase : Nat := 4294967296

/-- The digits of a number to base 2³², lowest first; none for zero. -/
def digits (n : Nat) : List Nat :=
  if n = 0 then [] else n % digitBase :: digits (n / digitBase)
termination_by n
decreasing_by exact Nat.div_lt_self (Nat.pos_of_ne_zero ‹n ≠ 0›) (by decide)

def integerJson (n : Int) : Json :=
  .array [.ofInt n.sign, .array ((digits n.natAbs).map .ofNat)]

def json (q : Rat) : Json := .array [integerJson q.num, integerJson q.den]

end LiftedPlanning.Rational
