import LiftedPlanning.Proofs.Reachability
import LiftedPlanning.Proofs.WellFormedness

/-!
# Canonical states

A state lists values of instances that exist, of the right type, and no value that would be there
anyway (`Vocabulary.Canonical`). Every change keeps this: a value that comes to be the implicit one
is taken off the list, however it came about, and an instance without an implicit value is never
taken off.

What a canonical state lists can be told from its values (`Canonical.get?_eq_some_iff`). So states
with the same values are the same state, which lets a search recognise states that it has seen.
-/

namespace LiftedPlanning

namespace State

theorem get?_put (s : State) (i j : FluentInstance) (v : Value) (implicit : Option Value) :
    (s.put i v implicit).get? j =
      if j = i then (if implicit = some v then none else some v) else s.get? j := by
  unfold put
  by_cases himplicit : implicit = some v
  · rw [if_pos himplicit, if_pos himplicit, SortedMap.get?_erase]
  · rw [if_neg himplicit, if_neg himplicit, SortedMap.get?_insert]

/-- What is listed after a change is the new value, unless it is implicit, or was listed before. -/
theorem get?_put_eq_some {s : State} {i j : FluentInstance} {v w : Value}
    {implicit : Option Value} :
    (s.put i v implicit).get? j = some w ↔
      j = i ∧ v = w ∧ implicit ≠ some v ∨ j ≠ i ∧ s.get? j = some w := by
  rw [get?_put]
  by_cases hj : j = i <;> by_cases himplicit : implicit = some v <;> simp [hj, himplicit]

end State

namespace Vocabulary

/-- What is listed are values of instances that exist, of the type of their fluent, and none of
them is implicit. -/
structure Canonical (V : Vocabulary) (s : State) : Prop where
  admits : ∀ i v, s.get? i = some v → V.Admits i v
  explicit : ∀ i v f, s.get? i = some v → V.fluent i.fluent = .ok f → f.implicitValue ≠ some v

variable {V : Vocabulary} {s t : State} {i : FluentInstance} {v : Value} {f : Fluent}

theorem Admits.checkInstance (h : V.Admits i v) : V.checkInstance i = .ok () := by
  obtain ⟨f, hf, hargs, _⟩ := h
  exact bind_eq_ok.mpr ⟨f, hf, checkArgs_eq_ok.mpr hargs⟩

namespace Canonical

theorem empty (V : Vocabulary) : V.Canonical .empty := ⟨nofun, nofun⟩

/-! ## Changes -/

theorem put (hs : V.Canonical s) (hf : V.fluent i.fluent = .ok f) (hv : V.Admits i v) :
    V.Canonical (s.put i v f.implicitValue) where
  admits := by
    intro j w hw
    rcases State.get?_put_eq_some.mp hw with ⟨rfl, rfl, _⟩ | ⟨_, hold⟩
    · exact hv
    · exact hs.admits j w hold
  explicit := by
    intro j w g hw hg
    rcases State.get?_put_eq_some.mp hw with ⟨rfl, rfl, hnew⟩ | ⟨_, hold⟩
    · obtain rfl : f = g := Except.ok.inj (hf.symm.trans hg)
      exact hnew
    · exact hs.explicit j w g hold hg

end Canonical

/-- Only numbers are changed by numbers, and the result is a number. -/
theorem shifted_eq_ok {change : Rat → Rat → Rat} {current delta : Value} :
    shifted i change current delta = .ok v ↔
      ∃ p q, current = .number p ∧ delta = .number q ∧ v = .number (change p q) := by
  constructor
  · intro h
    unfold shifted at h
    split at h
    · next p q =>
      cases h
      exact ⟨p, q, rfl, rfl, rfl⟩
    · cases h
  · rintro ⟨p, q, rfl, rfl, rfl⟩
    rfl

theorem accepts_of_shifted {change : Rat → Rat → Rat} {current delta : Value}
    (h : shifted i change current delta = .ok v) (hdelta : f.accepts delta = true) :
    f.accepts v = true := by
  obtain ⟨p, q, _, rfl, rfl⟩ := shifted_eq_ok.mp h
  -- a fluent that accepts one number accepts every number
  unfold Fluent.accepts at hdelta ⊢
  cases hf : f.valueType with
  | bool =>
    rw [hf] at hdelta
    cases hdelta
  | numeric => rfl

/-- What an update leaves is of the type of what it brings. -/
theorem accepts_of_updatedValue {u : Update} (hu : f.accepts u.value = true)
    (h : V.updatedValue s u = .ok v) : f.accepts v = true := by
  unfold updatedValue at h
  cases hkind : u.kind with
  | assign =>
    rw [hkind] at h
    cases h
    exact hu
  | increase | decrease =>
    rw [hkind] at h
    obtain ⟨current, _, h⟩ := bind_eq_ok.mp h
    exact accepts_of_shifted h hu

namespace Canonical

theorem applyUpdate {u : Update} (hs : V.Canonical s) (hu : V.checkInstance u.target = .ok ())
    (h : V.applyUpdate s u = .ok t) : V.Canonical t := by
  obtain ⟨f, hf, h⟩ := bind_eq_ok.mp h
  split at h
  · next haccepts =>
    obtain ⟨v, hv, ⟨⟩⟩ := bind_eq_ok.mp h
    exact hs.put hf (Problem.admits_of_checkInstance hu hf (accepts_of_updatedValue haccepts hv))
  · cases h

theorem apply {b : Binding} {a : Action} (hs : V.Canonical s) (h : V.apply s b a = .ok t) :
    V.Canonical t := by
  obtain ⟨us, hus, hfold⟩ := bind_eq_ok.mp h
  refine foldlM_keeps hfold hs ?_
  intro s' hs' u hu t' ht'
  obtain ⟨e, _, htarget, _⟩ := exists_effect_of_mem_updates hus hu
  exact hs'.applyUpdate (instanceAt_eq_ok htarget).2 ht'

/-! ## Values -/

/-- An instance is listed exactly if it exists and has a value that is not implicit. -/
theorem get?_eq_some_iff (hs : V.Canonical s) :
    s.get? i = some v ↔ V.checkInstance i = .ok () ∧ V.value s i = .ok v ∧
      ∀ f, V.fluent i.fluent = .ok f → f.implicitValue ≠ some v := by
  constructor
  · intro h
    refine ⟨(hs.admits i v h).checkInstance, ?_, fun f => hs.explicit i v f h⟩
    rw [value, h]
  · rintro ⟨_, hvalue, hexplicit⟩
    unfold value at hvalue
    cases hget : s.get? i with
    | some w =>
      rw [hget] at hvalue
      exact congrArg some (Except.ok.inj hvalue)
    | none =>
      rw [hget] at hvalue
      obtain ⟨f, hf, hvalue⟩ := bind_eq_ok.mp hvalue
      split at hvalue
      · next w himplicit =>
        cases hvalue
        exact absurd himplicit (hexplicit f hf)
      · cases hvalue

/-- Listed or not, values are of the type of their fluent. -/
theorem accepts_value (hV : V.Coherent) (hs : V.Canonical s) (h : V.value s i = .ok v) :
    ∃ f, V.fluent i.fluent = .ok f ∧ f.accepts v = true := by
  unfold value at h
  split at h
  · next w hw =>
    cases h
    obtain ⟨f, hf, _, hv⟩ := hs.admits i v hw
    exact ⟨f, hf, hv⟩
  · obtain ⟨f, hf, h⟩ := bind_eq_ok.mp h
    split at h
    · next w hw =>
      cases h
      exact ⟨f, hf, hV.accepts_implicitValue (fluent_eq_ok hf).1 hw⟩
    · cases h

/-- Canonical states that give the same values are the same. -/
theorem ext (hs : V.Canonical s) (ht : V.Canonical t)
    (h : ∀ i, V.checkInstance i = .ok () → V.value s i = V.value t i) : s = t := by
  apply SortedMap.ext_get?
  intro i
  apply Option.ext
  intro v
  rw [hs.get?_eq_some_iff, ht.get?_eq_some_iff]
  refine and_congr_right fun hi => ?_
  rw [h i hi]

end Canonical

end Vocabulary

/-! ## States of a problem -/

namespace Problem

variable {P : Problem} {s t : State}

/-- The states to which actions lead, from the initial state or from the state that lists
nothing. -/
def Arises (P : Problem) (s : State) : Prop := P.Reaches P.initialState s ∨ P.Reaches .empty s

theorem initialState_canonical (hP : P.WellTyped) : P.Canonical P.initialState where
  admits := by
    intro i v hv
    rw [initialState, SortedMap.get?_filter] at hv
    exact hP.initialValues i v (Option.filter_eq_some_iff.mp hv).1
  explicit := by
    intro i v f hv hf
    rw [initialState, SortedMap.get?_filter] at hv
    have hlisted := (Option.filter_eq_some_iff.mp hv).2
    have himplicit : P.implicitValue i.fluent = f.implicitValue := by
      rw [implicitValue, Vocabulary.find?_of_fluent hf]
      rfl
    simpa [himplicit] using hlisted

theorem Reaches.canonical (h : P.Reaches s t) (hs : P.Canonical s) : P.Canonical t := by
  induction h with
  | refl => exact hs
  | apply _ _ hu ih => exact ih.apply hu

theorem Arises.canonical (hP : P.WellTyped) (hs : P.Arises s) : P.Canonical s := by
  rcases hs with hs | hs
  · exact hs.canonical (initialState_canonical hP)
  · exact hs.canonical (.empty _)

/-- In every state that arises, each entry is for an instance of a declared fluent with arguments
that fit, and holds a value of the type of the fluent other than its implicit value. States that
arise are the same exactly if they give the same values. -/
theorem states_canonical (hP : P.Built) (hs : P.Arises s) (ht : P.Arises t) :
    (∀ e ∈ s.entries, ∃ f ∈ P.fluents, f.name = e.1.fluent ∧ P.checkInstance e.1 = .ok () ∧
      f.valueType.admits e.2 = true ∧ f.implicitValue ≠ some e.2) ∧
    (s = t ↔ ∀ i, P.checkInstance i = .ok () → P.value s i = P.value t i) := by
  have hs := hs.canonical hP.wellTyped
  have ht := ht.canonical hP.wellTyped
  refine ⟨?_, ?_, hs.ext ht⟩
  · rintro ⟨i, v⟩ he
    have hget := (SortedMap.get?_eq_some_iff_mem s i v).mpr he
    have hadmits := hs.admits i v hget
    obtain ⟨f, hf, _, hv⟩ := hadmits
    obtain ⟨hmem, hname⟩ := Vocabulary.fluent_eq_ok hf
    exact ⟨f, hmem, hname, (hs.admits i v hget).checkInstance, hv, hs.explicit i v f hget hf⟩
  · rintro rfl i _
    rfl

end Problem

/-! ## Example -/

namespace Examples

def fillTank : Action :=
  ⟨"fill", [⟨"x", "vessel"⟩], [], [.always "level" [v "x"] .increase (.number 2)]⟩

def rinseTank : Action :=
  ⟨"rinse", [⟨"x", "vessel"⟩], [], [.always "level" [v "x"] .increase (.number 1),
    .always "level" [v "x"] .decrease (.number 3)]⟩

/-- A tank with a level, which is 0 as long as nothing else is known, and a gauge that somebody has
set to 0. -/
def tank : Problem :=
  .build "tank" [
    .addType "vessel" none,
    .addObject "t" "vessel",
    .addFluent (.numeric "level" [⟨"x", "vessel"⟩] (some (.number 0))),
    .addFluent (.numeric "gauge" [] none),
    .addAction fillTank,
    .addAction rinseTank,
    .setInitialValue ⟨"gauge", []⟩ (.number 0)]

theorem tank_built : tank.Built := ⟨_, _, rfl⟩

def filledTank : State := .ofList [(⟨"level", ["t"]⟩, .number 2), (⟨"gauge", []⟩, .number 0)]

end Examples

namespace Problem

open Examples

/-- In the filled tank the level is listed; once the tank is rinsed it is not, and the state is the
initial one again, where only the gauge is listed, though it shows 0 too. -/
theorem states_canonical_tank :
    tank.apply tank.initialState (.ofArgs fillTank.parameters ["t"]) fillTank = .ok filledTank ∧
      tank.apply filledTank (.ofArgs rinseTank.parameters ["t"]) rinseTank =
        .ok tank.initialState ∧
      tank.initialState.entries = [(⟨"gauge", []⟩, .number 0)] ∧
      (∀ e ∈ filledTank.entries, ∃ f ∈ tank.fluents, f.name = e.1.fluent ∧
        tank.checkInstance e.1 = .ok () ∧ f.valueType.admits e.2 = true ∧
        f.implicitValue ≠ some e.2) ∧
      ¬ ∀ i, tank.checkInstance i = .ok () →
        tank.value filledTank i = tank.value tank.initialState i := by
  have hfill : tank.apply tank.initialState (.ofArgs fillTank.parameters ["t"]) fillTank =
      .ok filledTank := by decide +kernel
  have hfilled : tank.Arises filledTank := .inl (.apply .refl (by decide +kernel) hfill)
  obtain ⟨hentries, hsame⟩ := states_canonical tank_built hfilled (.inl .refl)
  refine ⟨hfill, by decide +kernel, by decide +kernel, hentries, ?_⟩
  rw [← hsame]
  decide +kernel

end Problem

end LiftedPlanning
