import LiftedPlanning.Proofs.Building
import Mathlib.Algebra.BigOperators.Group.List.Basic

/-!
# Counting argument lists

Argument lists can be counted without being listed: one parameter after the other, the size of its
domain is multiplied in. There is a largest count, and a product beyond it is cut down to it before
the next parameter is looked at.

Cutting down in between does not show in the end (`min_mul_min`). A further domain either has
objects, and then the product stays beyond the largest count, or it is empty, and then the product
is zero in either case. So the count is that of the lists that are enumerated, cut down once, and
unknown types are reported alike (`Vocabulary.countBindings_eq_map_bindings`).
-/

namespace LiftedPlanning

theorem length_tuples {α : Type} (ds : List (List α)) :
    (tuples ds).length = (ds.map List.length).prod := by
  induction ds with
  | nil => rfl
  | cons d ds ih => simp [tuples, List.length_flatMap, ih]

/-- A factor may be cut down to the limit before a product is. -/
theorem min_mul_min (n k limit : Nat) : min (min n limit * k) limit = min (n * k) limit := by
  rcases Nat.eq_zero_or_pos k with rfl | hk
  · rw [Nat.mul_zero, Nat.mul_zero]
  · by_cases hn : n ≤ limit
    · rw [Nat.min_eq_left hn]
    · have hlimit : limit ≤ n := Nat.le_of_not_le hn
      have hcut : limit ≤ limit * k := Nat.le_mul_of_pos_right limit hk
      have hfull : limit ≤ n * k := Nat.le_trans hlimit (Nat.le_mul_of_pos_right n hk)
      rw [Nat.min_eq_right hlimit, Nat.min_eq_right hcut, Nat.min_eq_right hfull]

namespace Vocabulary

/-- Counting on from a number multiplies it by the sizes of all domains. -/
theorem foldlM_countStep (V : Vocabulary) (params : List Parameter) (n : Nat) :
    params.foldlM V.countStep (min n countLimit) =
      (V.domains params).map fun ds => min (n * (ds.map List.length).prod) countLimit := by
  induction params generalizing n with
  | nil =>
    show Except.ok (min n countLimit) = .ok (min (n * 1) countLimit)
    rw [Nat.mul_one]
  | cons p params ih =>
    rw [List.foldlM_cons, countStep, domains, List.mapM_cons]
    cases V.domain p with
    | error err => rfl
    | ok d =>
      show params.foldlM V.countStep (min (min n countLimit * d.length) countLimit) =
        (V.domains params >>= fun ds => pure (d :: ds)).map _
      rw [min_mul_min, ih]
      cases V.domains params with
      | error err => rfl
      | ok ds =>
        show Except.ok (min (n * d.length * (ds.map List.length).prod) countLimit) =
          .ok (min (n * ((d :: ds).map List.length).prod) countLimit)
        rw [List.map_cons, List.prod_cons, Nat.mul_assoc]

/-- Counting argument lists fails just if enumerating them does, and with the same error. Otherwise
it gives the number of the lists that are enumerated, or 2⁶⁴ - 1 if there are more, whichever of the
parameters bring the product there and whether or not one without objects follows. -/
theorem countBindings_eq_map_bindings (V : Vocabulary) (params : List Parameter) :
    V.countBindings params =
      (V.bindings params).map fun argss => min argss.length (2 ^ 64 - 1) := by
  have hstart : V.countBindings params = params.foldlM V.countStep (min 1 countLimit) := rfl
  rw [hstart, foldlM_countStep, bindings]
  cases V.domains params with
  | error err => rfl
  | ok ds =>
    show Except.ok (min (1 * (ds.map List.length).prod) countLimit) =
      .ok (min (listTuples ds).length (2 ^ 64 - 1))
    have hlimit : countLimit = 2 ^ 64 - 1 := rfl
    rw [listTuples_eq, length_tuples, Nat.one_mul, hlimit]

/-- With two vehicles for each of 65 parameters the limit is passed, but without a crane there is
nothing to count. -/
example :
    let yard := Examples.depot.perform (.addType "crane" none)
    let fleet := List.replicate 65 ⟨"x", "vehicle"⟩
    yard.countBindings fleet = .ok (2 ^ 64 - 1) ∧
      yard.countBindings (fleet ++ [⟨"y", "crane"⟩]) = .ok 0 ∧
      yard.countBindings (fleet ++ [⟨"y", "barge"⟩]) = .error (.unknownType "barge") := by
  decide +kernel

end Vocabulary

end LiftedPlanning
