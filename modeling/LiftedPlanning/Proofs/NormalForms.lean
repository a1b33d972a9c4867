import LiftedPlanning.Proofs.Groundness

/-!
# Normal forms

Simplification folds every operator once, after its operands, and that is enough: folding an
operator over normal operands leaves nothing to fold (`StaticFacts.normal_simplify`), whether a
junction takes up the operands of another one, is replaced by its only operand, or an implication
becomes a negation. So an expression is normal just if simplification leaves it alone
(`StaticFacts.simplify_eq_self_iff`), and simplifying twice is simplifying once.

`Problem.NormalForm` says what this rules out in an expression.
-/

namespace LiftedPlanning

/-! ## Folding over normal operands -/

namespace Expr

/-- Operands that a junction keeps: neither truth values nor junctions of the same kind. -/
def KeptBy (op : Junction) (e : Expr) : Prop :=
  (∀ b, e ≠ .bool b) ∧ ∀ inner, e ≠ .junction op inner

variable {op : Junction} {es kept : List Expr}

theorem gather_of_keptBy (h : ∀ e ∈ es, e.KeptBy op) : gather op es = some es := by
  fun_induction gather op es with
  | case1 => rfl
  | case2 es _ | case3 b es _ => exact absurd rfl ((h _ List.mem_cons_self).1 _)
  | case4 inner es _ => exact absurd rfl ((h _ List.mem_cons_self).2 inner)
  | case5 op' inner es hop ih => rw [ih (List.forall_mem_cons.mp h).2, Option.map_some]
  | case6 e es _ _ ih => rw [ih (List.forall_mem_cons.mp h).2, Option.map_some]

/-- What is gathered is kept, if the operands that are taken up from other junctions are. -/
theorem keptBy_of_gather (h : gather op es = some kept)
    (hinner : ∀ inner, .junction op inner ∈ es → ∀ e ∈ inner, e.KeptBy op) :
    ∀ e ∈ kept, e.KeptBy op := by
  have htail {x : Expr} {es : List Expr}
      (hinner : ∀ inner, .junction op inner ∈ x :: es → ∀ e ∈ inner, e.KeptBy op) :
      ∀ inner, .junction op inner ∈ es → ∀ e ∈ inner, e.KeptBy op :=
    fun inner hmem => hinner inner (List.mem_cons_of_mem _ hmem)
  fun_induction gather op es generalizing kept with
  | case1 =>
    cases h
    exact List.forall_mem_nil _
  | case2 es ih => exact ih h (htail hinner)
  | case3 b es hb => cases h
  | case4 inner es ih =>
    obtain ⟨rest, hrest, rfl⟩ := Option.map_eq_some_iff.mp h
    exact List.forall_mem_append.mpr
      ⟨hinner inner List.mem_cons_self, ih hrest (htail hinner)⟩
  | case5 op' inner es hop ih =>
    obtain ⟨rest, hrest, rfl⟩ := Option.map_eq_some_iff.mp h
    refine List.forall_mem_cons.mpr ⟨⟨?_, ?_⟩, ih hrest (htail hinner)⟩
    · rintro _ ⟨⟩
    · rintro _ ⟨⟩
      exact hop rfl
  | case6 e es hbool hjunction ih =>
    obtain ⟨rest, hrest, rfl⟩ := Option.map_eq_some_iff.mp h
    exact List.forall_mem_cons.mpr ⟨⟨hbool, hjunction op⟩, ih hrest (htail hinner)⟩

theorem foldJunction_of_keptBy (hlength : 2 ≤ es.length) (h : ∀ e ∈ es, e.KeptBy op) :
    foldJunction op es = .junction op es := by
  rw [foldJunction, gather_of_keptBy h]
  match es, hlength with
  | _ :: _ :: _, _ => rfl

theorem foldNot_of_ne_bool {e : Expr} (h : ∀ b, e ≠ .bool b) : foldNot e = .not e := by
  fun_cases foldNot e with
  | case1 b => exact absurd rfl (h b)
  | case2 e => rfl

theorem foldBinary_true_implies (y : Expr) : foldBinary .implies (.bool true) y = y := by
  by_cases hy : y = .bool true
  · rw [hy, foldBinary]
    decide
  · rw [foldBinary]
    exact hy

theorem foldBinary_implies_true (x : Expr) : foldBinary .implies x (.bool true) = .bool true := by
  by_cases hx : x = .bool false
  · rw [hx, foldBinary]
  · rw [foldBinary]
    exact hx

theorem foldBinary_implies_false {x : Expr} (hx : ∀ b, x ≠ .bool b) :
    foldBinary .implies x (.bool false) = .not x := by
  rw [foldBinary]
  · exact hx false
  · exact hx true

/-- An implication is not folded if no side is a truth value, and only then. -/
theorem foldBinary_implies_eq_self_iff {x y : Expr} :
    foldBinary .implies x y = .binary .implies x y ↔ (∀ b, x ≠ .bool b) ∧ ∀ b, y ≠ .bool b := by
  refine ⟨fun h => ?_, fun ⟨hx, hy⟩ => by simp [foldBinary, hx, hy]⟩
  have hx : ∀ b, x ≠ .bool b := by
    rintro (_ | _) rfl
    · rw [foldBinary] at h
      cases h
    · -- the conclusion cannot be the implication that it is part of
      rw [foldBinary_true_implies] at h
      have hsize := congrArg sizeOf h
      simp at hsize
  refine ⟨hx, ?_⟩
  rintro (_ | _) rfl
  · rw [foldBinary_implies_false hx] at h
    cases h
  · rw [foldBinary_implies_true] at h
    cases h

theorem objects?_map_object (os : List String) : objects? (os.map .object) = some os := by
  induction os with
  | nil => rfl
  | cons o os ih => rw [List.map_cons, objects?, ih, Option.map_some]

end Expr

/-! ## Normal expressions -/

namespace StaticFacts

/-- There is nothing to fold at the outermost operator. -/
def Folded (F : StaticFacts) : Expr → Prop
  | .const _ | .var _ | .quantified .. => True
  | .fluent f args => F.value? f args = none
  | .not e => ∀ b, e ≠ .bool b
  | .junction op es => 2 ≤ es.length ∧ ∀ e ∈ es, e.KeptBy op
  | .series op es => Expr.foldSeries op es = .series op es
  | .binary op x y => Expr.foldBinary op x y = .binary op x y

def Normal (F : StaticFacts) (e : Expr) : Prop := ∀ d ∈ e.subexpressions, F.Folded d

variable {F : StaticFacts} {e : Expr} {es : List Expr}

theorem normal_iff : F.Normal e ↔ F.Folded e ∧ ∀ c ∈ e.children, F.Normal c :=
  Expr.forall_subexpressions_iff

/-! ## Simplification leaves normal expressions -/

theorem normal_const (v : Value) : F.Normal (.const v) :=
  normal_iff.mpr ⟨trivial, List.forall_mem_nil _⟩

theorem normal_foldFluent (f : String) (hargs : ∀ a ∈ es, F.Normal a) :
    F.Normal (F.foldFluent f es) := by
  unfold foldFluent
  split
  · next v _ => exact normal_const v
  · next hnone => exact normal_iff.mpr ⟨hnone, hargs⟩

theorem normal_foldNot (he : F.Normal e) : F.Normal (Expr.foldNot e) := by
  by_cases hbool : ∃ b, e = .bool b
  · obtain ⟨b, rfl⟩ := hbool
    exact normal_const _
  · rw [not_exists] at hbool
    rw [Expr.foldNot_of_ne_bool hbool]
    exact normal_iff.mpr ⟨hbool, List.forall_mem_singleton.mpr he⟩

/-- Operands that come from a normal junction of the same kind are normal, and they are kept, as
this junction keeps them. -/
theorem normal_foldJunction (op : Junction) (hes : ∀ e ∈ es, F.Normal e) :
    F.Normal (Expr.foldJunction op es) := by
  have hinner (inner : List Expr) (hmem : .junction op inner ∈ es) :
      (∀ e ∈ inner, e.KeptBy op) ∧ ∀ e ∈ inner, F.Normal e := by
    obtain ⟨⟨_, hkept⟩, hnormal⟩ := normal_iff.mp (hes _ hmem)
    exact ⟨hkept, hnormal⟩
  have hgather (kept : List Expr) (h : Expr.gather op es = some kept) :
      ∀ e ∈ kept, F.Normal e := by
    intro e he
    rcases Expr.mem_of_gather h he with he | ⟨inner, hmem, he⟩
    · exact hes e he
    · exact (hinner inner hmem).2 e he
  unfold Expr.foldJunction
  split
  · exact normal_const _
  · exact normal_const _
  · next e h => exact hgather [e] h e (List.mem_singleton_self e)
  · next kept hnil hsingleton h =>
    have hlength : 2 ≤ kept.length := by
      match kept, hnil, hsingleton with
      | [], hnil, _ => exact absurd rfl hnil
      | [e], _, hsingleton => exact absurd rfl (hsingleton e)
      | _ :: _ :: _, _, _ => exact Nat.le_add_left ..
    have hkept := Expr.keptBy_of_gather h fun inner hmem => (hinner inner hmem).1
    exact normal_iff.mpr ⟨⟨hlength, hkept⟩, hgather kept h⟩

theorem normal_foldSeries (op : Series) (hes : ∀ e ∈ es, F.Normal e) :
    F.Normal (Expr.foldSeries op es) := by
  rcases Expr.foldSeries_cases op es with ⟨q, hq⟩ | hseries
  · rw [hq]
    exact normal_const _
  · rw [hseries]
    exact normal_iff.mpr ⟨hseries, hes⟩

theorem normal_foldBinary (op : BinaryOp) {x y : Expr} (hx : F.Normal x) (hy : F.Normal y) :
    F.Normal (Expr.foldBinary op x y) := by
  rcases Expr.foldBinary_cases op x y with ⟨p, h⟩ | ⟨q, h⟩ | ⟨rfl, h | ⟨hbool, h⟩⟩ | h
  · rw [h]
    exact normal_const _
  · rw [h]
    exact normal_const _
  · rwa [h]
  · rw [h]
    exact normal_iff.mpr ⟨hbool, List.forall_mem_singleton.mpr hx⟩
  · rw [h]
    exact normal_iff.mpr ⟨h, List.forall_mem_cons.mpr ⟨hx, List.forall_mem_singleton.mpr hy⟩⟩

theorem normal_simplify (F : StaticFacts) (e : Expr) : F.Normal (F.simplify e) := by
  induction e with
  | const v => exact normal_const v
  | var x => exact normal_iff.mpr ⟨trivial, List.forall_mem_nil _⟩
  | fluent f args ih =>
    rw [simplify, simplifyAll_eq]
    exact normal_foldFluent f (List.forall_mem_map.mpr ih)
  | not e ih => exact normal_foldNot ih
  | junction op es ih =>
    rw [simplify, simplifyAll_eq]
    exact normal_foldJunction op (List.forall_mem_map.mpr ih)
  | series op es ih =>
    rw [simplify, simplifyAll_eq]
    exact normal_foldSeries op (List.forall_mem_map.mpr ih)
  | binary op x y ihx ihy => exact normal_foldBinary op ihx ihy
  | quantified q vars body ih =>
    exact normal_iff.mpr ⟨trivial, List.forall_mem_singleton.mpr ih⟩

/-! ## Simplification leaves normal expressions alone -/

theorem simplifyAll_of_normal (ih : ∀ e ∈ es, F.Normal e → F.simplify e = e)
    (hes : ∀ e ∈ es, F.Normal e) : F.simplifyAll es = es := by
  rw [simplifyAll_eq]
  exact (List.map_congr_left fun e he => ih e he (hes e he)).trans (List.map_id es)

theorem simplify_of_normal (h : F.Normal e) : F.simplify e = e := by
  induction e with
  | const v => rfl
  | var x => rfl
  | fluent f args ih =>
    obtain ⟨hvalue, hargs⟩ := normal_iff.mp h
    rw [Folded] at hvalue
    rw [simplify, simplifyAll_of_normal ih hargs, foldFluent, hvalue]
  | not e ih =>
    obtain ⟨hbool, he⟩ := normal_iff.mp h
    rw [simplify, ih (List.forall_mem_singleton.mp he), Expr.foldNot_of_ne_bool hbool]
  | junction op es ih =>
    obtain ⟨⟨hlength, hkept⟩, hes⟩ := normal_iff.mp h
    rw [simplify, simplifyAll_of_normal ih hes, Expr.foldJunction_of_keptBy hlength hkept]
  | series op es ih =>
    obtain ⟨hfold, hes⟩ := normal_iff.mp h
    rw [simplify, simplifyAll_of_normal ih hes]
    exact hfold
  | binary op x y ihx ihy =>
    obtain ⟨hfold, hxy⟩ := normal_iff.mp h
    obtain ⟨hx, hy⟩ := List.forall_mem_cons.mp hxy
    rw [simplify, ihx hx, ihy (List.forall_mem_singleton.mp hy)]
    exact hfold
  | quantified q vars body ih =>
    rw [simplify, ih (List.forall_mem_singleton.mp (normal_iff.mp h).2)]

theorem simplify_eq_self_iff : F.simplify e = e ↔ F.Normal e :=
  ⟨fun h => h ▸ normal_simplify F e, simplify_of_normal⟩

theorem simplify_simplify (F : StaticFacts) (e : Expr) : F.simplify (F.simplify e) = F.simplify e :=
  simplify_of_normal (normal_simplify F e)

/-- A disjunction of one operand gives it up to the conjunction around it, and a refuted implication
becomes a negation, all in one pass. -/
example (F : StaticFacts) :
    F.simplify (.and [.or [.and [.var "x", .var "y"]], .binary .implies (.var "z") (.bool false)]) =
      .and [.var "x", .var "y", .not (.var "z")] :=
  rfl

end StaticFacts

/-! ## What is not left -/

namespace Problem

/-- What simplification leaves nowhere in an expression: a truth value under a negation, a junction
or an implication; a junction directly under one of the same kind, or of fewer than two operands; a
static fluent applied to objects that fit, if the instance has an initial value. -/
structure NormalForm (P : Problem) (e : Expr) : Prop where
  not : ∀ d, .not d ∈ e.subexpressions → ∀ b, d ≠ .bool b
  junction : ∀ op es, .junction op es ∈ e.subexpressions →
    2 ≤ es.length ∧ ∀ d ∈ es, (∀ b, d ≠ .bool b) ∧ ∀ inner, d ≠ .junction op inner
  implies : ∀ x y, .binary .implies x y ∈ e.subexpressions →
    (∀ b, x ≠ .bool b) ∧ ∀ b, y ≠ .bool b
  static : ∀ f os v, P.isStatic f = true → P.checkInstance ⟨f, os⟩ = .ok () →
    P.value P.initialState ⟨f, os⟩ = .ok v → .fluent f (os.map .object) ∉ e.subexpressions

variable {P : Problem} {e : Expr}

/-- A static fluent applied to objects that fit has its initial value as lasting value. -/
theorem value?_of_isStatic {f : String} {os : List String} {v : Value}
    (hstatic : P.isStatic f = true) (hinstance : P.checkInstance ⟨f, os⟩ = .ok ())
    (hvalue : P.value P.initialState ⟨f, os⟩ = .ok v) :
    (StaticFacts.ofProblem P).value? f (os.map .object) = some v := by
  have hcontains : (StaticFacts.ofProblem P).statics.contains f = true := by
    obtain ⟨fl, hfl, hname⟩ := List.any_eq_true.mp hstatic
    exact List.contains_iff_mem.mpr (List.mem_map.mpr ⟨fl, hfl, by simpa using hname⟩)
  have hread : (do
      let i ← (StaticFacts.ofProblem P).vocabulary.instanceOf f os
      (StaticFacts.ofProblem P).vocabulary.value (StaticFacts.ofProblem P).initial i) = .ok v := by
    show (do
      let i ← P.instanceOf f os
      P.value P.initialState i) = .ok v
    rw [Vocabulary.instanceOf, hinstance]
    exact hvalue
  rw [StaticFacts.value?, if_pos hcontains, Expr.objects?_map_object]
  simp only [hread]

theorem normalForm_of_normal (h : (StaticFacts.ofProblem P).Normal e) : P.NormalForm e where
  not d hd := h _ hd
  junction op es hd := h _ hd
  implies x y hd := Expr.foldBinary_implies_eq_self_iff.mp (h _ hd)
  static f os v hstatic hinstance hvalue hd := by
    have hnone := h _ hd
    rw [StaticFacts.Folded, value?_of_isStatic hstatic hinstance hvalue] at hnone
    cases hnone

/-- Simplification is idempotent, and what it leaves is in normal form. -/
theorem simplify_normalForm (P : Problem) (e : Expr) :
    let F := StaticFacts.ofProblem P
    F.simplify (F.simplify e) = F.simplify e ∧ P.NormalForm (F.simplify e) :=
  ⟨StaticFacts.simplify_simplify _ e, normalForm_of_normal (StaticFacts.normal_simplify _ e)⟩

end Problem

end LiftedPlanning
