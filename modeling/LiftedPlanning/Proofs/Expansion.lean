import LiftedPlanning.Proofs.ArgumentLists
import LiftedPlanning.Proofs.EvaluationFollows

/-!
# Substitution and expansion keep evaluation exactly

Putting objects in place of variables before evaluation is evaluating under a binding of these
variables (`Evaluates.substitute`), and a quantifier evaluates like the junction of its instances
(`Evaluates.expand`): the same values, and failures of the same kind.

A quantifier takes its variables out of a substitution and adds them to a binding. That the two
meet again is a matter of bindings only (`Binding.setAll_overlay`), and holds for tuples as long as
the variable list.
-/

namespace LiftedPlanning

/-! ## Bindings laid over each other -/

namespace Binding

/-- The first binding, and the second where the first binds nothing. -/
def overlay (b c : Binding) : Binding := fun y => (b y).or (c y)

theorem overlay_empty (b : Binding) : b.overlay empty = b := by
  funext y
  exact Option.or_none

theorem empty_overlay (b : Binding) : empty.overlay b = b := by
  funext y
  exact Option.none_or

/-- Binding parameters on top of a binding is laying their own binding over it. -/
theorem setAll_eq_overlay (b : Binding) (ps : List Parameter) (os : List String) :
    b.setAll ps os = (ofArgs ps os).overlay b := by
  induction ps generalizing b os with
  | nil => exact (empty_overlay b).symm
  | cons p ps ih =>
    cases os with
    | nil => exact (empty_overlay b).symm
    | cons o os =>
      have hself : ofArgs (p :: ps) (o :: os) = (ofArgs ps os).overlay (empty.set p.name o) :=
        ih _ os
      rw [setAll, ih, hself]
      funext y
      -- a later parameter of the same name wins on both sides
      show (ofArgs ps os y).or (b.set p.name o y) =
        ((ofArgs ps os y).or (empty.set p.name o y)).or (b y)
      rw [Option.or_assoc]
      by_cases hy : y = p.name <;> simp [set, empty, hy]

theorem ofArgs_eq_none {ps : List Parameter} {y : String} (h : Parameter.binds ps y = false)
    (os : List String) : ofArgs ps os y = none := by
  induction ps generalizing os with
  | nil => rfl
  | cons p ps ih =>
    cases os with
    | nil => rfl
    | cons o os =>
      obtain ⟨hp, hps⟩ : ¬ p.name = y ∧ Parameter.binds ps y = false := by
        simpa [Parameter.binds] using h
      have htail := ih hps os
      rw [ofArgs, setAll, setAll_eq_overlay, overlay, htail, Option.none_or, set,
        if_neg (Ne.symm hp), empty]

theorem ofArgs_isSome {ps : List Parameter} {y : String} (h : Parameter.binds ps y = true)
    {os : List String} (hlen : ps.length = os.length) : (ofArgs ps os y).isSome = true := by
  induction ps generalizing os with
  | nil => cases h
  | cons p ps ih =>
    obtain ⟨o, os, rfl⟩ := List.exists_cons_of_length_eq_add_one hlen.symm
    rw [ofArgs, setAll, setAll_eq_overlay, overlay, Option.isSome_or]
    by_cases hy : y = p.name
    · simp [set, hy]
    · have hps : Parameter.binds ps y = true := by
        simpa [Parameter.binds, Ne.symm hy] using h
      rw [ih hps (Nat.succ.inj hlen), Bool.true_or]

/-- What a substitution keeps under a quantifier and what the quantifier binds. -/
theorem setAll_overlay {ps : List Parameter} {os : List String} (hlen : ps.length = os.length)
    (b c : Binding) : (b.overlay c).setAll ps os = (b.hide ps).overlay (c.setAll ps os) := by
  rw [setAll_eq_overlay, setAll_eq_overlay c]
  funext y
  simp only [overlay, hide]
  split
  · next hy =>
    -- the quantifier binds the variable, so the substitution has no say
    obtain ⟨o, ho⟩ := Option.isSome_iff_exists.mp (ofArgs_isSome hy hlen)
    rw [ho]
    rfl
  · next hy => rw [ofArgs_eq_none (by simpa using hy), Option.none_or, Option.none_or]

end Binding

namespace Vocabulary

namespace Evaluates

variable {exact : Prop} {V : Vocabulary} {s : State}

/-! ## Substitution -/

/-- Evaluating after a substitution follows evaluating with the substitution laid over the
binding. -/
theorem substitute (b c : Binding) (e : Expr) :
    V.Evaluates exact s (b.overlay c) c e (e.substitute b) := by
  induction e generalizing b c with
  | const v => exact .refl _
  | var x =>
    rw [Expr.substitute]
    cases hx : b x with
    | some o => simpa [Evaluates, evaluate, Binding.overlay, hx] using Follows.refl _
    | none => simpa [Evaluates, evaluate, Binding.overlay, hx] using Follows.refl _
  | fluent f args ih =>
    rw [Expr.substitute, Expr.substituteAll_eq]
    exact fluent f (forall₂_map_right fun a ha => ih a ha b c)
  | not e ih => exact not (ih b c)
  | junction op es ih =>
    rw [Expr.substitute, Expr.substituteAll_eq]
    exact junction op (forall₂_map_right fun e he => ih e he b c)
  | series op es ih =>
    rw [Expr.substitute, Expr.substituteAll_eq]
    exact series op (forall₂_map_right fun e he => ih e he b c)
  | binary op x y ihx ihy => exact binary op (ihx b c) (ihy b c)
  | quantified q vars body ih =>
    refine quantified q vars fun ds hds os hos => ?_
    rw [Binding.setAll_overlay (length_of_mem_tuples_domains hds hos)]
    exact ih _ _

theorem substitute_empty (b : Binding) (e : Expr) :
    V.Evaluates exact s b .empty e (e.substitute b) := by
  have h : V.Evaluates exact s (b.overlay .empty) .empty e (e.substitute b) := substitute b .empty e
  rwa [Binding.overlay_empty] at h

/-! ## Expansion -/

/-- The junction of the instances of a body follows the quantifier, if the body the instances are
made from follows the body of the quantifier. -/
theorem expandBody {q : Quantifier} {vars : List Parameter} {body body' e' : Expr}
    (h : V.expandBody q vars body' = .ok e')
    (hbody : ∀ b, V.Evaluates exact s b b body body') (b : Binding) :
    V.Evaluates exact s b b (.quantified q vars body) e' := by
  obtain ⟨argss, hargss, h⟩ := bind_eq_ok.mp h
  obtain ⟨ds, hds, hd⟩ := bind_eq_ok.mp hargss
  cases hd
  rw [listTuples_eq] at h
  have hinstances : Follows exact (· = ·)
      (scan (!q.junction.neutral)
        (fun os => V.holds s (b.setAll vars os) body) (tuples ds))
      (V.evaluateJunction s b q.junction
        ((tuples ds).map fun os => body'.substitute (.ofArgs vars os))) := by
    rw [evaluateJunction_eq_scan]
    refine scan_follows (forall₂_map_right fun os _ => ?_)
    have hinstance : V.Evaluates exact s ((Binding.ofArgs vars os).overlay b) b body' _ :=
      substitute (.ofArgs vars os) b body'
    rw [← Binding.setAll_eq_overlay] at hinstance
    exact (hbody _).holds.trans hinstance.holds
  rw [Evaluates, evaluate, hds]
  show Follows exact _ (scanTuples _ (fun os => V.holds s (b.setAll vars os) body) ds >>= _) _
  rw [scanTuples_eq]
  cases hts : tuples ds with
  | nil =>
    rw [hts] at h
    cases h
    rw [scan, Bool.not_not]
    exact .refl _
  | cons t ts =>
    rw [hts] at h hinstances
    cases h
    rw [evaluate]
    exact hinstances.bind_same fun p => .refl _

/-- The expansion of an expression follows the expression. -/
theorem expand {e e' : Expr} (h : V.expand e = .ok e') (b : Binding) :
    V.Evaluates exact s b b e e' := by
  induction e generalizing e' b with
  | const v =>
    cases h
    exact .refl _
  | var x =>
    cases h
    exact .refl _
  | fluent f args ih =>
    obtain ⟨args', hargs, h⟩ := bind_eq_ok.mp h
    cases h
    rw [expandAll_eq] at hargs
    exact fluent f (forall₂_of_mapM hargs fun a ha _ h => ih a ha h b)
  | not e ih =>
    obtain ⟨x', hx, h⟩ := bind_eq_ok.mp h
    cases h
    exact not (ih hx b)
  | junction op es ih =>
    obtain ⟨es', hes, h⟩ := bind_eq_ok.mp h
    cases h
    rw [expandAll_eq] at hes
    exact junction op (forall₂_of_mapM hes fun e he _ h => ih e he h b)
  | series op es ih =>
    obtain ⟨es', hes, h⟩ := bind_eq_ok.mp h
    cases h
    rw [expandAll_eq] at hes
    exact series op (forall₂_of_mapM hes fun e he _ h => ih e he h b)
  | binary op x y ihx ihy =>
    obtain ⟨x', hx, h⟩ := bind_eq_ok.mp h
    obtain ⟨y', hy, h⟩ := bind_eq_ok.mp h
    cases h
    exact binary op (ihx hx b) (ihy hy b)
  | quantified q vars body ih =>
    obtain ⟨body', hbody, h⟩ := bind_eq_ok.mp h
    exact expandBody h (fun b => ih hbody b) b

end Evaluates

/-! ## Agreement -/

/-- Evaluating what a substitution leaves of an expression, under a binding, is evaluating the
expression with the substitution laid over the binding: the two have the same value, or fail with
errors of the same kind. The substitution may replace some of the variables or none, and quantifiers
may hide any of them. -/
theorem substitute_agrees (V : Vocabulary) (s : State) (b c : Binding) (e : Expr) :
    (∃ v, V.evaluate s (b.overlay c) e = .ok v ∧ V.evaluate s c (e.substitute b) = .ok v) ∨
      ∃ err err', V.evaluate s (b.overlay c) e = .error err ∧
        V.evaluate s c (e.substitute b) = .error err' ∧ err.SameKind err' := by
  have hfollows : V.Evaluates True s (b.overlay c) c e (e.substitute b) := .substitute b c e
  rcases Follows.exact_iff.mp hfollows with ⟨v, v', hv, hv', rfl⟩ | ⟨err, err', herr, herr', hkind⟩
  · exact .inl ⟨v, hv, hv'⟩
  · exact .inr ⟨err, err', herr, herr', hkind⟩

/-- The quantifier keeps `x` to itself, so only the first `x` is replaced. -/
example : (Expr.and [.var "x", .quantified .universal [⟨"x", "thing"⟩] (.var "x")]).substitute
    (.ofPairs [("x", "crate")]) =
      .and [.object "crate", .quantified .universal [⟨"x", "thing"⟩] (.var "x")] := by
  decide +kernel

end Vocabulary

end LiftedPlanning
