import LiftedPlanning.Proofs.Groundness

/-!
# Quantifier expansion

Expansion puts the junction of all instances in place of a quantifier, once and for all. Evaluation
goes through the bindings of the variables anew in every state, and stops at the first that
decides. The two agree (`Vocabulary.expand_agrees`): in any state and under any binding of the free
variables, either both have the same value, or both fail for a reason of the same kind.

They differ in which quantified types have to be declared. Evaluation asks for the domains of the
quantifiers it comes to, expansion for those of all quantifiers (`Vocabulary.expand_total_iff`).
-/

namespace LiftedPlanning.Vocabulary

variable {V : Vocabulary} {e e' : Expr}

/-! ## Success -/

theorem contains_of_domain {p : Parameter} {os : List String} (h : V.domain p = .ok os) :
    V.types.contains p.type = true := by
  obtain ⟨objects, hobjects, _⟩ := bind_eq_ok.mp h
  by_contra hlacks
  rw [objectsOf, if_neg hlacks] at hobjects
  cases hobjects

theorem contains_of_expand (h : V.expand e = .ok e') {t : String} (ht : t ∈ e.quantifiedTypes) :
    V.types.contains t = true := by
  have hall {es es' : List Expr} (ih : ∀ c ∈ es, ∀ {c'}, V.expand c = .ok c' →
      t ∈ c.quantifiedTypes → V.types.contains t = true) (hes : V.expandAll es = .ok es')
      (hchild : ∃ c ∈ es, t ∈ c.quantifiedTypes) : V.types.contains t = true := by
    rw [expandAll_eq] at hes
    obtain ⟨c, hc, hct⟩ := hchild
    obtain ⟨c', _, hc'⟩ := exists_mem_of_mapM hes hc
    exact ih c hc hc' hct
  induction e generalizing e' with
  | const v => cases ht
  | var x => cases ht
  | fluent f args ih =>
    obtain ⟨args', hargs, _⟩ := bind_eq_ok.mp h
    exact hall ih hargs (Expr.exists_child_of_mem_quantifiedTypes rfl ht)
  | not e ih =>
    obtain ⟨d, hd, _⟩ := bind_eq_ok.mp h
    obtain ⟨c, hc, hct⟩ := Expr.exists_child_of_mem_quantifiedTypes rfl ht
    obtain rfl := List.mem_singleton.mp hc
    exact ih hd hct
  | junction op es ih | series op es ih =>
    obtain ⟨es', hes, _⟩ := bind_eq_ok.mp h
    exact hall ih hes (Expr.exists_child_of_mem_quantifiedTypes rfl ht)
  | binary op x y ihx ihy =>
    obtain ⟨x', hx, hxy⟩ := bind_eq_ok.mp h
    obtain ⟨y', hy, _⟩ := bind_eq_ok.mp hxy
    obtain ⟨c, hc, hct⟩ := Expr.exists_child_of_mem_quantifiedTypes rfl ht
    rcases List.mem_pair.mp hc with rfl | rfl
    · exact ihx hx hct
    · exact ihy hy hct
  | quantified q vars body ih =>
    obtain ⟨body', hbody, hinstances⟩ := bind_eq_ok.mp h
    rcases Expr.mem_quantifiedTypes_iff.mp ht with hbinder | ⟨c, hc, hct⟩
    · -- the domains of all variables are asked for, whether there are instances or not
      obtain ⟨p, hp, rfl⟩ := List.mem_map.mp hbinder
      obtain ⟨argss, hargss, _⟩ := bind_eq_ok.mp hinstances
      obtain ⟨ds, hds, _⟩ := bind_eq_ok.mp hargss
      obtain ⟨os, _, hos⟩ := exists_mem_of_mapM hds hp
      exact contains_of_domain hos
    · obtain rfl := List.mem_singleton.mp hc
      exact ih hbody hct

/-- Expansion succeeds just if all quantifiers range over declared types. -/
theorem expand_total_iff :
    (∃ e', V.expand e = .ok e') ↔ ∀ t ∈ e.quantifiedTypes, V.types.contains t = true := by
  constructor
  · rintro ⟨e', h⟩ t ht
    exact contains_of_expand h ht
  · exact expand_total

/-- Evaluation does not come to the quantifier over cranes, but expansion does. -/
example :
    let e : Expr := .junction .or
      [.bool true, .quantified .existential [⟨"x", "crane"⟩] (.bool true)]
    Vocabulary.empty.evaluate .empty .empty e = .ok (.bool true) ∧
      Vocabulary.empty.expand e = .error (.unknownType "crane") := by
  decide +kernel

/-! ## Agreement -/

/-- An expression whose quantifiers range over declared types has an expansion without quantifiers,
the same one for all states and bindings. Evaluated in a state and under a binding, the two have
the same value, or fail with errors of the same kind. -/
theorem expand_agrees (h : ∀ t ∈ e.quantifiedTypes, V.types.contains t = true) :
    ∃ e', V.expand e = .ok e' ∧ e'.hasQuantifier = false ∧ ∀ (s : State) (b : Binding),
      (∃ v, V.evaluate s b e = .ok v ∧ V.evaluate s b e' = .ok v) ∨
        ∃ err err', V.evaluate s b e = .error err ∧ V.evaluate s b e' = .error err' ∧
          err.SameKind err' := by
  obtain ⟨e', he'⟩ := expand_total h
  refine ⟨e', he', (Expr.within_of_expand he').hasQuantifier, ?_⟩
  intro s b
  have hfollows : V.Evaluates True s b b e e' := .expand he' b
  rcases Follows.exact_iff.mp hfollows with ⟨v, v', hv, hv', rfl⟩ | ⟨err, err', herr, herr', hkind⟩
  · exact .inl ⟨v, hv, hv'⟩
  · exact .inr ⟨err, err', herr, herr', hkind⟩

/-- Some thing in the depot weighs at most five and is on no vehicle, and all cranes are broken. The
inner quantifier binds the name of the outer one twice, and there are no cranes. The crate decides,
before the truck is come to, which has no weight. If instead all things have to be as light as the
cart, then the truck makes both fail. -/
theorem expand_agrees_depot :
    let yard := Examples.depot.perform (.addType "crane" none)
    let x := Expr.var "x"
    let y := Expr.var "y"
    let within (q : Rat) : Expr := .binary .le (.fluent "weight" [x]) (.number q)
    let free : Expr := .quantified .universal [⟨"y", "thing"⟩, ⟨"x", "lorry"⟩, ⟨"x", "vehicle"⟩]
      (.not (.fluent "on" [y, x]))
    let idle : Expr := .quantified .universal [⟨"x", "crane"⟩] (.bool false)
    let light : Expr := .quantified .existential [⟨"x", "thing"⟩]
      (.junction .and [within 5, free, idle])
    let handy : Expr := .quantified .universal [⟨"x", "thing"⟩] (within 20)
    (∃ e', yard.expand light = .ok e' ∧ e'.hasQuantifier = false ∧
      yard.evaluate yard.initialState .empty e' = .ok (.bool true)) ∧
      ∃ e' err, yard.expand handy = .ok e' ∧ e'.hasQuantifier = false ∧
        yard.evaluate yard.initialState .empty e' = .error err ∧
        (ModelError.undefinedValue ⟨"weight", ["truck"]⟩).SameKind err := by
  intro yard x y within free idle light handy
  have hlight : yard.evaluate yard.initialState .empty light = .ok (.bool true) := by
    decide +kernel
  have hhandy : yard.evaluate yard.initialState .empty handy =
      .error (.undefinedValue ⟨"weight", ["truck"]⟩) := by
    decide +kernel
  have hlightTypes : ∀ t ∈ light.quantifiedTypes, yard.types.contains t = true := by
    decide +kernel
  have hhandyTypes : ∀ t ∈ handy.quantifiedTypes, yard.types.contains t = true := by
    decide +kernel
  constructor
  · obtain ⟨e', he', hquantifier, hagrees⟩ := expand_agrees hlightTypes
    rcases hagrees yard.initialState .empty with ⟨v, hv, hv'⟩ | ⟨err, _, herr, _, _⟩
    · rw [hlight] at hv
      exact ⟨e', he', hquantifier, hv'.trans hv.symm⟩
    · rw [hlight] at herr
      cases herr
  · obtain ⟨e', he', hquantifier, hagrees⟩ := expand_agrees hhandyTypes
    rcases hagrees yard.initialState .empty with ⟨v, hv, _⟩ | ⟨err, err', herr, herr', hkind⟩
    · rw [hhandy] at hv
      cases hv
    · rw [hhandy] at herr
      cases herr
      exact ⟨e', err', he', hquantifier, herr', hkind⟩

end LiftedPlanning.Vocabulary
