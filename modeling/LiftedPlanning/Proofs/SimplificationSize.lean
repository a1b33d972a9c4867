import LiftedPlanning.Proofs.NormalForms
import Mathlib.Algebra.Order.BigOperators.Group.List
import Mathlib.Algebra.Order.Ring.Nat

/-!
# The size of what is simplified

Folding an operator never makes an expression larger, as what a fold makes consists of parts of the
operands and at most one operator around them; so simplification does not either
(`StaticFacts.nodeCount_simplify_le`).

`StaticFacts.simplify` takes a refuted implication for the negation of its premise without looking
at it again. To simplify this negation once more, by a call on a term that is not an operand, gives
the same. `StaticFacts.simplifyWithin` does so under a bound on the depth of calls, and the number
of nodes is such a bound: the negation of a premise has fewer nodes than the implication, also when
the premise has been simplified before.
-/

namespace LiftedPlanning

/-! ## Counting nodes -/

namespace Expr

def nodeCount (e : Expr) : Nat := e.subexpressions.length

theorem nodeCount_eq (e : Expr) : e.nodeCount = (e.children.map nodeCount).sum + 1 := by
  rw [nodeCount, subexpressions_eq, List.length_cons, List.length_flatMap]
  rfl

theorem nodeCount_pos (e : Expr) : 0 < e.nodeCount := by
  rw [nodeCount_eq]
  exact Nat.succ_pos _

theorem nodeCount_lt_of_mem_children {e c : Expr} (h : c ∈ e.children) :
    c.nodeCount < e.nodeCount := by
  rw [nodeCount_eq e]
  exact Nat.lt_succ_of_le (List.le_sum_of_mem (List.mem_map_of_mem h))

@[simp] theorem nodeCount_const (v : Value) : (const v).nodeCount = 1 := nodeCount_eq _

@[simp] theorem nodeCount_fluent (f : String) (args : List Expr) :
    (fluent f args).nodeCount = (args.map nodeCount).sum + 1 := nodeCount_eq _

@[simp] theorem nodeCount_not (e : Expr) : e.not.nodeCount = e.nodeCount + 1 := nodeCount_eq _

@[simp] theorem nodeCount_junction (op : Junction) (es : List Expr) :
    (junction op es).nodeCount = (es.map nodeCount).sum + 1 := nodeCount_eq _

@[simp] theorem nodeCount_series (op : Series) (es : List Expr) :
    (series op es).nodeCount = (es.map nodeCount).sum + 1 := nodeCount_eq _

@[simp] theorem nodeCount_binary (op : BinaryOp) (x y : Expr) :
    (binary op x y).nodeCount = x.nodeCount + y.nodeCount + 1 := nodeCount_eq _

@[simp] theorem nodeCount_quantified (q : Quantifier) (vars : List Parameter) (body : Expr) :
    (quantified q vars body).nodeCount = body.nodeCount + 1 := nodeCount_eq _

/-! ## Folding does not grow -/

theorem nodeCount_const_le (v : Value) (e : Expr) : (const v).nodeCount ≤ e.nodeCount := by
  rw [nodeCount_const]
  exact e.nodeCount_pos

/-- A junction inside another one is at least as large as its operands. -/
theorem sum_nodeCount_gather {op : Junction} {es kept : List Expr} (h : gather op es = some kept) :
    (kept.map nodeCount).sum ≤ (es.map nodeCount).sum := by
  fun_induction gather op es generalizing kept with
  | case1 =>
    cases h
    exact Nat.le_refl _
  | case2 es ih => exact Nat.le_add_left_of_le (ih h)
  | case3 b es hb => cases h
  | case4 inner es ih =>
    obtain ⟨rest, hrest, rfl⟩ := Option.map_eq_some_iff.mp h
    have hrest := ih hrest
    simp only [List.map_append, List.sum_append, List.map_cons, List.sum_cons, nodeCount_junction]
    omega
  | case5 op' inner es hop ih =>
    obtain ⟨rest, hrest, rfl⟩ := Option.map_eq_some_iff.mp h
    exact Nat.add_le_add_left (ih hrest) _
  | case6 e es _ _ ih =>
    obtain ⟨rest, hrest, rfl⟩ := Option.map_eq_some_iff.mp h
    exact Nat.add_le_add_left (ih hrest) _

theorem nodeCount_foldJunction_le (op : Junction) (es : List Expr) :
    (foldJunction op es).nodeCount ≤ (junction op es).nodeCount := by
  rcases foldJunction_cases op es with ⟨p, hp⟩ | ⟨kept, h, hmem | hjunction⟩
  · rw [hp]
    exact nodeCount_const_le _ _
  · have hkept := sum_nodeCount_gather h
    have hone := List.le_sum_of_mem (List.mem_map_of_mem (f := nodeCount) hmem)
    rw [nodeCount_junction]
    omega
  · rw [hjunction, nodeCount_junction, nodeCount_junction]
    exact Nat.succ_le_succ (sum_nodeCount_gather h)

theorem nodeCount_foldNot_le (e : Expr) : (foldNot e).nodeCount ≤ e.not.nodeCount := by
  rcases foldNot_cases e with ⟨p, hp⟩ | hnot
  · rw [hp]
    exact nodeCount_const_le _ _
  · rw [hnot]

theorem nodeCount_foldSeries_le (op : Series) (es : List Expr) :
    (foldSeries op es).nodeCount ≤ (series op es).nodeCount := by
  rcases foldSeries_cases op es with ⟨q, hq⟩ | hseries
  · rw [hq]
    exact nodeCount_const_le _ _
  · rw [hseries]

theorem nodeCount_foldBinary_le (op : BinaryOp) (x y : Expr) :
    (foldBinary op x y).nodeCount ≤ (binary op x y).nodeCount := by
  rcases foldBinary_cases op x y with ⟨p, h⟩ | ⟨q, h⟩ | ⟨_, h | ⟨_, h⟩⟩ | h <;> rw [h]
  · exact nodeCount_const_le _ _
  · exact nodeCount_const_le _ _
  · rw [nodeCount_binary]
    omega
  · rw [nodeCount_not, nodeCount_binary]
    have hy := y.nodeCount_pos
    omega

end Expr

namespace StaticFacts

variable {F : StaticFacts} {es : List Expr}

theorem nodeCount_foldFluent_le (F : StaticFacts) (f : String) (args : List Expr) :
    (F.foldFluent f args).nodeCount ≤ (Expr.fluent f args).nodeCount := by
  unfold foldFluent
  split
  · exact Expr.nodeCount_const_le _ _
  · exact Nat.le_refl _

theorem sum_nodeCount_simplifyAll (ih : ∀ e ∈ es, (F.simplify e).nodeCount ≤ e.nodeCount) :
    ((F.simplifyAll es).map Expr.nodeCount).sum ≤ (es.map Expr.nodeCount).sum := by
  rw [simplifyAll_eq, List.map_map]
  exact List.sum_le_sum ih

theorem nodeCount_simplify_le (F : StaticFacts) (e : Expr) :
    (F.simplify e).nodeCount ≤ e.nodeCount := by
  induction e with
  | const v => exact Nat.le_refl _
  | var x => exact Nat.le_refl _
  | fluent f args ih =>
    refine (F.nodeCount_foldFluent_le f _).trans ?_
    rw [Expr.nodeCount_fluent, Expr.nodeCount_fluent]
    exact Nat.succ_le_succ (sum_nodeCount_simplifyAll ih)
  | not e ih =>
    refine (Expr.nodeCount_foldNot_le _).trans ?_
    rw [Expr.nodeCount_not, Expr.nodeCount_not]
    exact Nat.succ_le_succ ih
  | junction op es ih =>
    refine (Expr.nodeCount_foldJunction_le op _).trans ?_
    rw [Expr.nodeCount_junction, Expr.nodeCount_junction]
    exact Nat.succ_le_succ (sum_nodeCount_simplifyAll ih)
  | series op es ih =>
    refine (Expr.nodeCount_foldSeries_le op _).trans ?_
    rw [Expr.nodeCount_series, Expr.nodeCount_series]
    exact Nat.succ_le_succ (sum_nodeCount_simplifyAll ih)
  | binary op x y ihx ihy =>
    refine (Expr.nodeCount_foldBinary_le op _ _).trans ?_
    rw [Expr.nodeCount_binary, Expr.nodeCount_binary]
    exact Nat.succ_le_succ (Nat.add_le_add ihx ihy)
  | quantified q vars body ih =>
    rw [simplify, Expr.nodeCount_quantified, Expr.nodeCount_quantified]
    exact Nat.succ_le_succ ih

end StaticFacts

/-! ## Recursion -/

namespace Expr

/-- The same operator over new operands, if all of them are given. -/
def mapChildren (f : Expr → Option Expr) : Expr → Option Expr
  | const v => some (const v)
  | var x => some (var x)
  | fluent g args => do return fluent g (← args.mapM f)
  | not e => do return not (← f e)
  | junction op es => do return junction op (← es.mapM f)
  | series op es => do return series op (← es.mapM f)
  | binary op x y => do return binary op (← f x) (← f y)
  | quantified q vars body => do return quantified q vars (← f body)

end Expr

namespace StaticFacts

/-- Folds an implication between two simplified sides. If it is refuted by its conclusion, the
negation of its premise is simplified `again`. -/
def foldImplication (again : Expr → Option Expr) : Expr → Expr → Option Expr
  | .const (.bool false), _ => some (.bool true)
  | _, .const (.bool true) => some (.bool true)
  | .const (.bool true), y => some y
  | x, .const (.bool false) => again (.not x)
  | x, y => some (.binary .implies x y)

def foldOperator (F : StaticFacts) (again : Expr → Option Expr) : Expr → Option Expr
  | .fluent f args => some (F.foldFluent f args)
  | .not e => some (.foldNot e)
  | .junction op es => some (.foldJunction op es)
  | .series op es => some (.foldSeries op es)
  | .binary .implies x y => foldImplication again x y
  | .binary op x y => some (.foldBinary op x y)
  | e => some e

/-- Simplifies with calls at most `depth` deep, the one for an operand or a new negation being one
deeper than the one it is made in; `none` if this is not enough. -/
def simplifyWithin (F : StaticFacts) : Nat → Expr → Option Expr
  | 0, _ => none
  | depth + 1, e => do
    F.foldOperator (F.simplifyWithin depth) (← e.mapChildren (F.simplifyWithin depth))

variable {F : StaticFacts} {e : Expr}

theorem foldImplication_eq {again : Expr → Option Expr} {x : Expr}
    (hagain : (∀ b, x ≠ .bool b) → again (.not x) = some (.not x)) (y : Expr) :
    foldImplication again x y = some (.foldBinary .implies x y) := by
  fun_cases foldImplication again x y with
  | case1 y => rfl
  | case2 x _ => rw [Expr.foldBinary_implies_true]
  | case3 y _ => rw [Expr.foldBinary_true_implies]
  | case4 x hfalse htrue =>
    have hbool : ∀ b, x ≠ .bool b := Bool.forall_bool.mpr ⟨hfalse, htrue⟩
    rw [hagain hbool, Expr.foldBinary_implies_false hbool]
  | case5 x y hxfalse hytrue hxtrue hyfalse =>
    have hx : ∀ b, x ≠ .bool b := Bool.forall_bool.mpr ⟨hxfalse, hxtrue⟩
    have hy : ∀ b, y ≠ .bool b := Bool.forall_bool.mpr ⟨hyfalse, hytrue⟩
    rw [Expr.foldBinary_implies_eq_self_iff.mpr ⟨hx, hy⟩]

theorem foldOperator_binary {again : Expr → Option Expr} {x : Expr}
    (hagain : (∀ b, x ≠ .bool b) → again (.not x) = some (.not x)) (op : BinaryOp) (y : Expr) :
    F.foldOperator again (.binary op x y) = some (.foldBinary op x y) := by
  cases op with
  | implies => exact foldImplication_eq hagain y
  | iff | equals | le | lt | minus | div => rfl

theorem simplifyWithin_eq {depth : Nat} (h : e.nodeCount ≤ depth) :
    F.simplifyWithin depth e = some (F.simplify e) := by
  -- not an induction on the expression, as the new negation is not an operand
  induction depth generalizing e with
  | zero => exact absurd h (Nat.not_le_of_gt e.nodeCount_pos)
  | succ depth ih =>
    have hchildren (c : Expr) (hc : c ∈ e.children) :
        F.simplifyWithin depth c = some (F.simplify c) :=
      ih (Nat.le_of_lt_succ ((Expr.nodeCount_lt_of_mem_children hc).trans_le h))
    have hlist : e.children.mapM (F.simplifyWithin depth) = some (F.simplifyAll e.children) := by
      rw [simplifyAll_eq]
      exact mapM_eq_pure hchildren
    cases e with
    | const v => rfl
    | var x => rfl
    | fluent f args =>
      rw [Expr.children] at hlist
      rw [simplifyWithin, Expr.mapChildren, hlist]
      rfl
    | not e =>
      rw [simplifyWithin, Expr.mapChildren, hchildren e (List.mem_singleton_self e)]
      rfl
    | junction op es =>
      rw [Expr.children] at hlist
      rw [simplifyWithin, Expr.mapChildren, hlist]
      rfl
    | series op es =>
      rw [Expr.children] at hlist
      rw [simplifyWithin, Expr.mapChildren, hlist]
      rfl
    | binary op x y =>
      have hagain (hbool : ∀ b, F.simplify x ≠ .bool b) :
          F.simplifyWithin depth (.not (F.simplify x)) = some (.not (F.simplify x)) := by
        -- the premise has not grown, and the negation takes the place of the conclusion
        have hx := F.nodeCount_simplify_le x
        have hy := y.nodeCount_pos
        rw [Expr.nodeCount_binary] at h
        rw [ih (by rw [Expr.nodeCount_not]; omega), simplify, simplify_simplify,
          Expr.foldNot_of_ne_bool hbool]
      rw [simplifyWithin, Expr.mapChildren, hchildren x List.mem_cons_self,
        hchildren y (List.mem_cons_of_mem _ (List.mem_singleton_self y))]
      exact foldOperator_binary hagain op _
    | quantified q vars body =>
      rw [simplifyWithin, Expr.mapChildren, hchildren body (List.mem_singleton_self body)]
      rfl

/-- The bound can be reached: the new negation has an operand again. -/
example (F : StaticFacts) :
    let e := Expr.binary .implies (.var "x") (.bool false)
    e.nodeCount = 3 ∧ F.simplifyWithin 2 e = none ∧
      F.simplifyWithin 3 e = some (.not (.var "x")) :=
  ⟨rfl, rfl, rfl⟩

end StaticFacts

/-- Calls as deep as an expression has nodes are enough to simplify it, the one for a negated
premise included, and there are no more nodes afterwards. -/
theorem Problem.simplify_terminates (P : Problem) (e : Expr) :
    let F := StaticFacts.ofProblem P
    (∀ more, F.simplifyWithin (e.nodeCount + more) e = some (F.simplify e)) ∧
      (F.simplify e).nodeCount ≤ e.nodeCount :=
  ⟨fun _ => StaticFacts.simplifyWithin_eq (Nat.le_add_right _ _),
    StaticFacts.nodeCount_simplify_le _ e⟩

end LiftedPlanning
