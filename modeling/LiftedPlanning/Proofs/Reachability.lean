import LiftedPlanning.Problem.Successor
import LiftedPlanning.Proofs.Building
import LiftedPlanning.Proofs.Simplification

/-!
# Reachable states

The states to which the actions of a problem lead. An action changes only instances its effects
aim at (`Vocabulary.apply_frame`), and no effect aims at a static fluent; so the static facts of a
problem hold in every state that can be reached from the initial one
(`StaticFacts.holdIn_of_reaches`). An expression that has a value in such a state keeps it when
these facts are folded in.
-/

namespace LiftedPlanning

/-! ## What an action leaves alone -/

namespace State

theorem get?_put_of_ne (s : State) {i j : FluentInstance} (v : Value) (implicit : Option Value)
    (h : j ≠ i) : (s.put i v implicit).get? j = s.get? j := by
  unfold put
  split
  · exact s.get?_erase_of_ne h
  · exact s.get?_insert_of_ne h v

end State

namespace Vocabulary

variable {V : Vocabulary} {s t : State} {b : Binding}

theorem applyUpdate_frame {u : Update} {i : FluentInstance} (h : V.applyUpdate s u = .ok t)
    (hi : i ≠ u.target) : t.get? i = s.get? i := by
  obtain ⟨f, _, h⟩ := bind_eq_ok.mp h
  split at h
  · obtain ⟨v, _, ⟨⟩⟩ := bind_eq_ok.mp h
    exact s.get?_put_of_ne v _ hi
  · cases h

theorem applyUpdates_frame {us : List Update} {i : FluentInstance}
    (h : us.foldlM V.applyUpdate s = .ok t) (hi : ∀ u ∈ us, i ≠ u.target) :
    t.get? i = s.get? i :=
  foldlM_keeps (I := fun u => u.get? i = s.get? i) h rfl fun _ hs u hu _ hstep =>
    (applyUpdate_frame hstep (hi u hu)).trans hs

/-- An instance that was read has the fluent it was read of, and its arguments fit. -/
theorem instanceAt_eq_ok {fluent : String} {args : List Expr} {i : FluentInstance}
    (h : V.instanceAt s b fluent args = .ok i) : i.fluent = fluent ∧ V.checkInstance i = .ok () := by
  obtain ⟨os, _, h⟩ := bind_eq_ok.mp h
  obtain ⟨hcheck, ⟨⟩⟩ := check_bind_eq_ok.mp h
  exact ⟨rfl, hcheck⟩

/-- Every change comes from an effect: its target, its kind and its value are those of the effect. -/
theorem exists_effect_of_mem_updates {es : List Effect} {us : List Update}
    (h : V.updates s b es = .ok us) {u : Update} (hu : u ∈ us) :
    ∃ e ∈ es, V.instanceAt s b e.fluent e.args = .ok u.target ∧ u.kind = e.kind ∧
      V.evaluate s b e.value = .ok u.value := by
  induction es generalizing us with
  | nil =>
    cases h
    cases hu
  | cons e es ih =>
    rw [updates] at h
    obtain ⟨p, _, h⟩ := bind_eq_ok.mp h
    split at h
    · obtain ⟨i, hi, h⟩ := bind_eq_ok.mp h
      obtain ⟨v, hv, h⟩ := bind_eq_ok.mp h
      obtain ⟨us', hus', ⟨⟩⟩ := bind_eq_ok.mp h
      rcases List.mem_cons.mp hu with rfl | hu
      · exact ⟨e, List.mem_cons_self, hi, rfl, hv⟩
      · obtain ⟨e', he', horigin⟩ := ih hus' hu
        exact ⟨e', List.mem_cons_of_mem _ he', horigin⟩
    · obtain ⟨e', he', horigin⟩ := ih h hu
      exact ⟨e', List.mem_cons_of_mem _ he', horigin⟩

/-- An action leaves the instances of fluents alone that its effects do not mention. -/
theorem apply_frame {a : Action} (h : V.apply s b a = .ok t) {i : FluentInstance}
    (hi : ∀ e ∈ a.effects, e.fluent ≠ i.fluent) : t.get? i = s.get? i := by
  obtain ⟨us, hus, hfold⟩ := bind_eq_ok.mp h
  refine applyUpdates_frame hfold fun u hu hiu => ?_
  obtain ⟨e, he, htarget, _⟩ := exists_effect_of_mem_updates hus hu
  exact hi e he (hiu ▸ (instanceAt_eq_ok htarget).1.symm)

end Vocabulary

/-! ## Reachability -/

/-- The states to which applications of the actions of a problem lead from a state. Neither
preconditions nor argument types are asked for, so these are at least the states of all runs. -/
inductive Problem.Reaches (P : Problem) (s : State) : State → Prop where
  | refl : P.Reaches s s
  | apply {t u : State} {a : Action} {b : Binding} : P.Reaches s t → a ∈ P.actions →
      P.apply t b a = .ok u → P.Reaches s u

namespace Problem

variable {P : Problem} {s t u : State}

theorem action_eq_ok {name : String} {a : Action} (h : P.action name = .ok a) :
    a ∈ P.actions ∧ a.name = name := by
  unfold action at h
  split at h
  · next a' ha =>
    cases h
    exact ⟨List.mem_of_find?_eq_some ha, by simpa using List.find?_some ha⟩
  · cases h

theorem step_eq_some {b : Binding} {a : Action} (h : P.step s b a = .ok (some t)) :
    P.firstFalse s b a.preconditions = .ok none ∧ P.apply s b a = .ok t := by
  obtain ⟨c, hc, h⟩ := bind_eq_ok.mp h
  cases c with
  | some c => cases h
  | none =>
    obtain ⟨t', ht, ⟨⟩⟩ := bind_eq_ok.mp h
    exact ⟨hc, ht⟩

theorem Reaches.successor {i : ActionInstance} (h : P.Reaches s t)
    (hu : P.successor t i = .ok (some u)) : P.Reaches s u := by
  obtain ⟨a, ha, hu⟩ := bind_eq_ok.mp hu
  obtain ⟨_, _, hu⟩ := bind_eq_ok.mp hu
  exact h.apply (action_eq_ok ha).1 (step_eq_some hu).2

end Problem

/-! ## Static facts in reachable states -/

namespace StaticFacts

variable {P : Problem} {s t : State}

theorem holdIn_initialState : (ofProblem P).HoldIn P.initialState := fun _ _ => rfl

theorem not_writes_of_mem_statics {f : String} (h : f ∈ (ofProblem P).statics) :
    P.writes f = false := by
  obtain ⟨fl, hfl, rfl⟩ := List.mem_map.mp h
  simpa using (List.mem_filter.mp hfl).2

theorem holdIn_apply {b : Binding} {a : Action} (ha : a ∈ P.actions)
    (h : P.apply s b a = .ok t) (hs : (ofProblem P).HoldIn s) : (ofProblem P).HoldIn t := by
  intro i hi
  rw [← hs i hi]
  refine Vocabulary.apply_frame h fun e he hfluent => ?_
  have hwrites : P.writes i.fluent = true :=
    List.any_eq_true.mpr ⟨a, ha, List.any_eq_true.mpr ⟨e, he, by simpa using hfluent⟩⟩
  rw [not_writes_of_mem_statics hi] at hwrites
  cases hwrites

theorem holdIn_of_reaches (h : P.Reaches P.initialState s) : (ofProblem P).HoldIn s := by
  induction h with
  | refl => exact holdIn_initialState
  | apply _ ha hu ih => exact holdIn_apply ha hu ih

end StaticFacts

/-! ## Simplification in reachable states -/

/-- In a reachable state an expression that has a value still has it once the static facts of the
problem have been folded in. -/
theorem Problem.evaluate_simplify {P : Problem} {s : State} (hs : P.Reaches P.initialState s)
    {b : Binding} {e : Expr} {v : Value} (h : P.evaluate s b e = .ok v) :
    P.evaluate s b ((StaticFacts.ofProblem P).simplify e) = .ok v := by
  have hfollows := StaticFacts.simplify_follows (StaticFacts.holdIn_of_reaches hs) b e
  obtain ⟨_, hv, rfl⟩ := hfollows.of_ok h
  exact hv

namespace Examples

/-- If we are at a place from where going to `c` costs more than going to `a`, then a road leads
from `c` to `a`. -/
def shortcut (x : String) : Expr :=
  let toll (place : String) : Expr := .fluent "toll" [o place]
  .binary .implies
    (.and [.and [.fluent "at" [v x]], .binary .lt (toll "a") (toll "c")])
    (.fluent "road" [o "c", o "a"])

def roadsAtB : State :=
  .ofList [(⟨"at", ["b"]⟩, .bool true), (⟨"road", ["a", "b"]⟩, .bool true),
    (⟨"road", ["b", "c"]⟩, .bool true), (⟨"road", ["c", "b"]⟩, .bool true),
    (⟨"toll", ["c"]⟩, .number 3)]

end Examples

open Examples in
/-- Tolls and roads are static, where we are is not. What is left of the implication is still false
at `b`. -/
theorem Problem.evaluate_simplify_roads :
    roads.Reaches roads.initialState roadsAtB ∧
      (StaticFacts.ofProblem roads).simplify (shortcut "x") = .not (.fluent "at" [v "x"]) ∧
      roads.evaluate roadsAtB (.ofArgs [⟨"x", "place"⟩] ["b"]) (.not (.fluent "at" [v "x"])) =
        .ok (.bool false) := by
  have hdrive : roads.successor roads.initialState ⟨"drive", ["a", "b"]⟩ = .ok (some roadsAtB) := by
    decide +kernel
  have hreaches : roads.Reaches roads.initialState roadsAtB := Reaches.successor .refl hdrive
  have hsimplify : (StaticFacts.ofProblem roads).simplify (shortcut "x") =
      .not (.fluent "at" [v "x"]) := by decide +kernel
  have hvalue : roads.evaluate roadsAtB (.ofArgs [⟨"x", "place"⟩] ["b"]) (shortcut "x") =
      .ok (.bool false) := by decide +kernel
  refine ⟨hreaches, hsimplify, ?_⟩
  rw [← hsimplify]
  exact evaluate_simplify hreaches hvalue

end LiftedPlanning
