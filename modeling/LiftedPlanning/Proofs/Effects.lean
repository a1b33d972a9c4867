import LiftedPlanning.Proofs.CanonicalStates

/-!
# Effects in order

What an action does to one fluent instance (`Vocabulary.settle`): the active effects that aim at it
are taken in order of declaration, each on the value that those before it have left. Which effects
are active, what they aim at and what they bring is read in the state before the action.

The list of a state and its implicit values take no part in this. A value that is taken off the
list, because it has become implicit, is still the value that the next effect meets
(`Vocabulary.value_put`). In a state that arises a failure of the action is seen in advance too: it
can be applied exactly if its effects are `Vocabulary.Performable`.
-/

namespace LiftedPlanning

/-- The value that a change leaves, from the value it meets, if that is defined. An assignment takes
any value and none; the other two need a number, and change it by a number. -/
def EffectKind.revise : EffectKind → Option Value → Value → Option Value
  | .assign, _, v => some v
  | .increase, some (.number p), .number q => some (.number (p + q))
  | .decrease, some (.number p), .number q => some (.number (p - q))
  | _, _, _ => none

theorem EffectKind.exists_number_of_revise {k : EffectKind} {current : Option Value} {v w : Value}
    (hk : k ≠ .assign) (h : k.revise current v = some w) : ∃ q, current = some (.number q) := by
  unfold revise at h
  split at h
  · exact absurd rfl hk
  · next p q => exact ⟨p, rfl⟩
  · next p q => exact ⟨p, rfl⟩
  · cases h

namespace Vocabulary

def value? (V : Vocabulary) (s : State) (i : FluentInstance) : Option Value :=
  (V.value s i).toOption

/-- The change that an effect makes: none if its condition is not true. -/
def change? (V : Vocabulary) (s : State) (b : Binding) (e : Effect) : Option Update :=
  match V.holds s b e.condition, V.instanceAt s b e.fluent e.args, V.evaluate s b e.value with
  | .ok true, .ok i, .ok v => some ⟨i, e.kind, v⟩
  | _, _, _ => none

def changes (V : Vocabulary) (s : State) (b : Binding) (es : List Effect) : List Update :=
  es.filterMap (V.change? s b)

/-- The value that an instance has after some changes: those that aim at it are made, one after the
other. -/
def settle (V : Vocabulary) (s : State) (us : List Update) (i : FluentInstance) : Option Value :=
  (us.filter fun u => u.target = i).foldl (fun v u => u.kind.revise v u.value) (V.value? s i)

/-- What effects need to be applied: their conditions have truth values, active ones have a target
and a value that its fluent accepts, and what is increased or decreased is a number by then. -/
structure Performable (V : Vocabulary) (s : State) (b : Binding) (es : List Effect) : Prop where
  conditions : ∀ e ∈ es, ∃ p, V.evaluate s b e.condition = .ok (.bool p)
  evaluates : ∀ e ∈ es, V.evaluate s b e.condition = .ok (.bool true) →
    (∃ i, V.instanceAt s b e.fluent e.args = .ok i) ∧ ∃ v, V.evaluate s b e.value = .ok v
  accepted : ∀ u ∈ V.changes s b es,
    ∃ f, V.fluent u.target.fluent = .ok f ∧ f.accepts u.value = true
  numbers : ∀ before u after, V.changes s b es = before ++ u :: after → u.kind ≠ .assign →
    ∃ q, V.settle s before u.target = some (.number q)

variable {V : Vocabulary} {s t : State} {b : Binding} {u : Update} {us : List Update}
  {i : FluentInstance} {v : Value} {e : Effect} {es : List Effect} {f : Fluent}

/-! ## Which changes are made -/

theorem holds_eq_ok {x : Expr} {p : Bool} :
    V.holds s b x = .ok p ↔ V.evaluate s b x = .ok (.bool p) := by
  constructor
  · intro h
    obtain ⟨v, hv, h⟩ := bind_eq_ok.mp h
    cases v <;> cases h
    exact hv
  · intro h
    exact bind_eq_ok.mpr ⟨_, h, rfl⟩

theorem change?_eq_some : V.change? s b e = some u ↔
    V.holds s b e.condition = .ok true ∧ V.instanceAt s b e.fluent e.args = .ok u.target ∧
      e.kind = u.kind ∧ V.evaluate s b e.value = .ok u.value := by
  unfold change?
  constructor
  · intro h
    split at h
    · next hc hi hv =>
      cases h
      exact ⟨hc, hi, rfl, hv⟩
    · cases h
  · rintro ⟨hc, hi, hk, hv⟩
    rw [hc, hi, hv, hk]

theorem change?_eq_none (h : V.holds s b e.condition = .ok false) : V.change? s b e = none := by
  unfold change?
  rw [h]

/-- What effects are evaluated to, if each of them is inactive or makes a change. -/
theorem updates_eq_ok : V.updates s b es = .ok us ↔
    (∀ e ∈ es, V.holds s b e.condition = .ok false ∨ ∃ u, V.change? s b e = some u) ∧
      V.changes s b es = us := by
  induction es generalizing us with
  | nil => simp [updates, changes]
  | cons e es ih =>
    rw [updates, List.forall_mem_cons, changes, List.filterMap_cons]
    constructor
    · intro h
      obtain ⟨p, hp, h⟩ := bind_eq_ok.mp h
      cases p with
      | true =>
        obtain ⟨i, hi, h⟩ := bind_eq_ok.mp h
        obtain ⟨v, hv, h⟩ := bind_eq_ok.mp h
        obtain ⟨us', hus', ⟨⟩⟩ := bind_eq_ok.mp h
        obtain ⟨hes, rfl⟩ := ih.mp hus'
        have hchange : V.change? s b e = some ⟨i, e.kind, v⟩ :=
          change?_eq_some.mpr ⟨hp, hi, rfl, hv⟩
        refine ⟨⟨.inr ⟨_, hchange⟩, hes⟩, ?_⟩
        rw [hchange]
        rfl
      | false =>
        obtain ⟨hes, rfl⟩ := ih.mp h
        refine ⟨⟨.inl hp, hes⟩, ?_⟩
        rw [change?_eq_none hp]
        rfl
    · rintro ⟨⟨he, hes⟩, rfl⟩
      have hrest := ih.mpr ⟨hes, rfl⟩
      rcases he with hp | ⟨u, hu⟩
      · rw [change?_eq_none hp]
        exact bind_eq_ok.mpr ⟨false, hp, hrest⟩
      · obtain ⟨hp, hi, hk, hv⟩ := change?_eq_some.mp hu
        rw [hu]
        refine bind_eq_ok.mpr ⟨true, hp, bind_eq_ok.mpr ⟨_, hi, bind_eq_ok.mpr ⟨_, hv, ?_⟩⟩⟩
        refine bind_eq_ok.mpr ⟨_, hrest, ?_⟩
        rw [hk]
        rfl

/-- An effect is inactive or makes a change exactly if what has to be read of it can be read. -/
theorem evaluable_iff :
    (V.holds s b e.condition = .ok false ∨ ∃ u, V.change? s b e = some u) ↔
      (∃ p, V.evaluate s b e.condition = .ok (.bool p)) ∧
        (V.evaluate s b e.condition = .ok (.bool true) →
          (∃ i, V.instanceAt s b e.fluent e.args = .ok i) ∧ ∃ v, V.evaluate s b e.value = .ok v) := by
  constructor
  · rintro (hp | ⟨u, hu⟩)
    · have hp := holds_eq_ok.mp hp
      refine ⟨⟨false, hp⟩, fun htrue => ?_⟩
      cases hp.symm.trans htrue
    · obtain ⟨hp, hi, _, hv⟩ := change?_eq_some.mp hu
      exact ⟨⟨true, holds_eq_ok.mp hp⟩, fun _ => ⟨⟨_, hi⟩, ⟨_, hv⟩⟩⟩
  · rintro ⟨⟨p, hp⟩, htrue⟩
    cases p with
    | false => exact .inl (holds_eq_ok.mpr hp)
    | true =>
      obtain ⟨⟨i, hi⟩, ⟨v, hv⟩⟩ := htrue hp
      exact .inr ⟨⟨i, e.kind, v⟩, change?_eq_some.mpr ⟨holds_eq_ok.mpr hp, hi, rfl, hv⟩⟩

/-- The changes are to instances that exist. -/
theorem checkInstance_of_mem_changes (hu : u ∈ V.changes s b es) :
    V.checkInstance u.target = .ok () := by
  obtain ⟨e, _, hchange⟩ := List.mem_filterMap.mp hu
  exact (instanceAt_eq_ok (change?_eq_some.mp hchange).2.1).2

/-! ## One change -/

theorem value?_eq_some : V.value? s i = some v ↔ V.value s i = .ok v := by
  unfold value?
  cases V.value s i <;> simp [Except.toOption]

/-- A changed instance has its new value, whether or not it comes to be listed. -/
theorem value_put (hf : V.fluent i.fluent = .ok f) (j : FluentInstance) :
    V.value (s.put i v f.implicitValue) j = if j = i then .ok v else V.value s j := by
  rw [value, State.get?_put]
  by_cases hj : j = i
  · subst hj
    rw [if_pos rfl, if_pos rfl]
    by_cases himplicit : f.implicitValue = some v
    · rw [if_pos himplicit]
      refine bind_eq_ok.mpr ⟨f, hf, ?_⟩
      rw [himplicit]
      rfl
    · rw [if_neg himplicit]
  · rw [if_neg hj, if_neg hj]
    rfl

/-- A change succeeds exactly if it can be made of the current value. -/
theorem updatedValue_eq_ok :
    V.updatedValue s u = .ok v ↔ u.kind.revise (V.value? s u.target) u.value = some v := by
  unfold updatedValue
  cases hkind : u.kind with
  | assign => simp [EffectKind.revise]
  | increase | decrease =>
    cases hcurrent : V.value s u.target with
    | error e => simp [value?, hcurrent, EffectKind.revise, Except.toOption, bind, Except.bind]
    | ok w =>
      cases w <;> cases hdelta : u.value <;>
        simp [value?, hcurrent, EffectKind.revise, Except.toOption, bind, Except.bind, shifted]

theorem applyUpdate_eq_ok : V.applyUpdate s u = .ok t ↔
    ∃ f v, V.fluent u.target.fluent = .ok f ∧ f.accepts u.value = true ∧
      u.kind.revise (V.value? s u.target) u.value = some v ∧
      t = s.put u.target v f.implicitValue := by
  unfold applyUpdate
  constructor
  · intro h
    obtain ⟨f, hf, h⟩ := bind_eq_ok.mp h
    split at h
    · next haccepts =>
      obtain ⟨v, hv, ⟨⟩⟩ := bind_eq_ok.mp h
      exact ⟨f, v, hf, haccepts, updatedValue_eq_ok.mp hv, rfl⟩
    · cases h
  · rintro ⟨f, v, hf, haccepts, hv, rfl⟩
    refine bind_eq_ok.mpr ⟨f, hf, ?_⟩
    rw [if_pos haccepts]
    exact bind_eq_ok.mpr ⟨v, updatedValue_eq_ok.mpr hv, rfl⟩

theorem value?_applyUpdate (h : V.applyUpdate s u = .ok t) (i : FluentInstance) :
    V.value? t i = if u.target = i then u.kind.revise (V.value? s i) u.value else V.value? s i := by
  obtain ⟨f, v, hf, _, hv, rfl⟩ := applyUpdate_eq_ok.mp h
  by_cases hi : u.target = i
  · subst hi
    rw [if_pos rfl, hv, value?_eq_some, value_put hf, if_pos rfl]
  · rw [if_neg hi, value?, value_put hf, if_neg (Ne.symm hi), value?]

/-! ## All changes -/

/-- Making the first change beforehand comes to the same. -/
theorem settle_cons (h : V.applyUpdate s u = .ok t) (us : List Update) (i : FluentInstance) :
    V.settle s (u :: us) i = V.settle t us i := by
  unfold settle
  rw [value?_applyUpdate h i, List.filter_cons]
  by_cases hi : u.target = i <;> simp [hi]

theorem value?_applyUpdates (h : us.foldlM V.applyUpdate s = .ok t) (i : FluentInstance) :
    V.value? t i = V.settle s us i := by
  induction us generalizing s with
  | nil =>
    cases h
    rfl
  | cons u us ih =>
    rw [List.foldlM_cons] at h
    obtain ⟨s', hs', h⟩ := bind_eq_ok.mp h
    rw [settle_cons hs', ih h]

/-! ## When changes succeed -/

/-- A fluent that accepts one number accepts nothing but numbers. -/
theorem number_of_accepts {q : Rat} (hq : f.accepts (.number q) = true)
    (hv : f.accepts v = true) : ∃ r, v = .number r := by
  unfold Fluent.accepts at hq hv
  cases hf : f.valueType with
  | bool =>
    rw [hf] at hq
    cases hq
  | numeric =>
    rw [hf] at hv
    cases v with
    | number r => exact ⟨r, rfl⟩
    | bool p => cases hv
    | object o => cases hv

/-- In a canonical state a change is possible if the fluent accepts what it brings and, unless it
is an assignment, it meets a number. What is there then is of the type of the fluent, so that the
new value can be computed from it. -/
theorem Canonical.applyUpdate_total_iff (hV : V.Coherent) (hs : V.Canonical s) :
    (∃ t, V.applyUpdate s u = .ok t) ↔
      (∃ f, V.fluent u.target.fluent = .ok f ∧ f.accepts u.value = true) ∧
        (u.kind ≠ .assign → ∃ q, V.value? s u.target = some (.number q)) := by
  constructor
  · rintro ⟨t, h⟩
    obtain ⟨f, v, hf, haccepts, hv, _⟩ := applyUpdate_eq_ok.mp h
    exact ⟨⟨f, hf, haccepts⟩, fun hkind => EffectKind.exists_number_of_revise hkind hv⟩
  · rintro ⟨⟨f, hf, haccepts⟩, hnumber⟩
    have hrevised : ∃ v, u.kind.revise (V.value? s u.target) u.value = some v := by
      cases hkind : u.kind with
      | assign => exact ⟨_, rfl⟩
      | increase | decrease =>
        -- a number is there, so the fluent is numeric and what it accepts is a number too
        obtain ⟨q, hq⟩ := hnumber (by simp [hkind])
        obtain ⟨g, hg, hgq⟩ := hs.accepts_value hV (value?_eq_some.mp hq)
        obtain rfl : g = f := Except.ok.inj (hg.symm.trans hf)
        obtain ⟨r, hr⟩ := number_of_accepts hgq haccepts
        rw [hq, hr]
        exact ⟨_, rfl⟩
    obtain ⟨v, hv⟩ := hrevised
    exact ⟨_, applyUpdate_eq_ok.mpr ⟨f, v, hf, haccepts, hv, rfl⟩⟩

/-- Changes to instances that exist are possible one after the other if each of them is possible
where its turn comes. -/
theorem Canonical.applyUpdates_total_iff (hV : V.Coherent) (hs : V.Canonical s)
    (hus : ∀ u ∈ us, V.checkInstance u.target = .ok ()) :
    (∃ t, us.foldlM V.applyUpdate s = .ok t) ↔
      (∀ u ∈ us, ∃ f, V.fluent u.target.fluent = .ok f ∧ f.accepts u.value = true) ∧
        ∀ before u after, us = before ++ u :: after → u.kind ≠ .assign →
          ∃ q, V.settle s before u.target = some (.number q) := by
  induction us generalizing s with
  | nil => simp [pure, Except.pure]
  | cons u us ih =>
    obtain ⟨hu, hus⟩ := List.forall_mem_cons.mp hus
    rw [List.foldlM_cons, List.forall_mem_cons]
    constructor
    · rintro ⟨t, h⟩
      obtain ⟨s', hs', h⟩ := bind_eq_ok.mp h
      obtain ⟨haccepts, hnumber⟩ := (hs.applyUpdate_total_iff hV).mp ⟨s', hs'⟩
      -- the first change leaves a canonical state, so the others are judged the same way from there
      obtain ⟨hrest, hnumbers⟩ := (ih (hs.applyUpdate hu hs') hus).mp ⟨t, h⟩
      refine ⟨⟨haccepts, hrest⟩, fun before w after hsplit hkind => ?_⟩
      cases before with
      | nil =>
        obtain ⟨rfl, _⟩ := List.cons.inj hsplit
        exact hnumber hkind
      | cons _ before =>
        obtain ⟨rfl, hafter⟩ := List.cons.inj hsplit
        rw [settle_cons hs']
        exact hnumbers before w after hafter hkind
    · rintro ⟨⟨haccepts, hrest⟩, hnumbers⟩
      obtain ⟨s', hs'⟩ := (hs.applyUpdate_total_iff hV).mpr ⟨haccepts, hnumbers [] u us rfl⟩
      refine bind_total ⟨s', hs'⟩ fun s'' hs'' => ?_
      obtain rfl : s' = s'' := Except.ok.inj (hs'.symm.trans hs'')
      refine (ih (hs.applyUpdate hu hs') hus).mpr ⟨hrest, fun before w after hsplit hkind => ?_⟩
      rw [← settle_cons hs']
      exact hnumbers (u :: before) w after (congrArg (u :: ·) hsplit) hkind

end Vocabulary

/-! ## Actions in states that arise -/

namespace Problem

open Vocabulary

variable {P : Problem} {s : State}

/-- In every state that arises an action can be applied exactly if its effects are performable.
Afterwards each instance has the value to which the active effects that aim at it, in order of
declaration, take the one it had; an instance that none aims at keeps its value, or is as undefined
as before. -/
theorem apply_in_order (hP : P.Built) (hs : P.Arises s) (b : Binding) (a : Action) :
    ((∃ t, P.apply s b a = .ok t) ↔ P.Performable s b a.effects) ∧
      ∀ t, P.apply s b a = .ok t → ∀ i,
        P.value? t i = P.settle s (P.changes s b a.effects) i ∧
          ((∀ u ∈ P.changes s b a.effects, u.target ≠ i) → P.value t i = P.value s i) := by
  have hcanonical := hs.canonical hP.wellTyped
  have hcoherent := hP.wellTyped.vocabulary
  have hrun := hcanonical.applyUpdates_total_iff hcoherent
    fun u (hu : u ∈ P.changes s b a.effects) => checkInstance_of_mem_changes hu
  refine ⟨⟨?_, ?_⟩, ?_⟩
  · rintro ⟨t, h⟩
    obtain ⟨us, hus, hfold⟩ := bind_eq_ok.mp h
    obtain ⟨heffects, rfl⟩ := updates_eq_ok.mp hus
    obtain ⟨haccepted, hnumbers⟩ := hrun.mp ⟨t, hfold⟩
    exact ⟨fun e he => (evaluable_iff.mp (heffects e he)).1,
      fun e he => (evaluable_iff.mp (heffects e he)).2, haccepted, hnumbers⟩
  · intro h
    have heffects := fun e he => evaluable_iff.mpr ⟨h.conditions e he, h.evaluates e he⟩
    obtain ⟨t, ht⟩ := hrun.mpr ⟨h.accepted, h.numbers⟩
    exact ⟨t, bind_eq_ok.mpr ⟨_, updates_eq_ok.mpr ⟨heffects, rfl⟩, ht⟩⟩
  · intro t h i
    obtain ⟨us, hus, hfold⟩ := bind_eq_ok.mp h
    obtain ⟨_, rfl⟩ := updates_eq_ok.mp hus
    refine ⟨value?_applyUpdates hfold i, fun hother => ?_⟩
    have hlisted : t.get? i = s.get? i :=
      applyUpdates_frame hfold fun u hu => (hother u hu).symm
    rw [value, value, hlisted]

open Examples in
/-- A jug that is poured into itself is emptied and then filled with what was in it: the second
effect has read the level before the first one was made, but meets the level after it. Nothing can
be spilt, since the sum that is to be increased is undefined. -/
theorem apply_in_order_jugs :
    (∃ t, jugs.apply jugs.initialState (.ofArgs pour.parameters ["j", "j"]) pour = .ok t ∧
      jugs.value? t ⟨"level", ["j"]⟩ = some (.number 5) ∧
      jugs.value t ⟨"spilt", []⟩ = jugs.value jugs.initialState ⟨"spilt", []⟩) ∧
    ¬ jugs.Performable jugs.initialState (.ofArgs spill.parameters ["j"]) spill.effects := by
  have harises : jugs.Arises jugs.initialState := .inl .refl
  constructor
  · have hpour : jugs.apply jugs.initialState (.ofArgs pour.parameters ["j", "j"]) pour =
        .ok (.ofList [(⟨"level", ["j"]⟩, .number 5), (⟨"wet", ["j"]⟩, .bool true)]) := by
      decide +kernel
    have hvalues := (apply_in_order jugs_built harises _ pour).2 _ hpour
    refine ⟨_, hpour, ?_, (hvalues ⟨"spilt", []⟩).2 (by decide +kernel)⟩
    rw [(hvalues ⟨"level", ["j"]⟩).1]
    decide +kernel
  · intro hperformable
    obtain ⟨t, ht⟩ := (apply_in_order jugs_built harises _ spill).1.mpr hperformable
    have hspill : jugs.apply jugs.initialState (.ofArgs spill.parameters ["j"]) spill =
        .error (.undefinedValue ⟨"spilt", []⟩) := by decide +kernel
    cases hspill.symm.trans ht

end Problem

end LiftedPlanning
