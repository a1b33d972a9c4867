import LiftedPlanning.Identified
import LiftedPlanning.Problem.Document
import LiftedPlanning.Proofs.JsonForms
import LiftedPlanning.Proofs.WellFormedness

/-!
# Problem documents

The JSON form of a problem leaves nothing out: part for part, equal forms come from equal things,
so the JSON text of a built problem determines the problem (`Problem.Built.render_inj`). What makes
problems equal is their content (`Problem.SameContent`), so a fingerprint is one of the content, as
far as SHA-256 does not collide on documents (`Problem.document_iff_sameContent`).

The hierarchy of types needs care, because it gives parents by their position among the types. That
tells the parent because parents are declared types (`TypeHierarchy.ParentsDeclared`).
-/

namespace LiftedPlanning

open Json

/-! ## Fluents -/

theorem ValueType.name_inj {t t' : ValueType} : t.name = t'.name ↔ t = t' := by
  cases t <;> cases t' <;> decide

theorem Value.json_ne_null (v : Value) : v.json ≠ .null := by
  cases v <;> exact nofun

theorem Fluent.json_inj {f g : Fluent} : f.json = g.json ↔ f = g := by
  refine ⟨fun h => ?_, congrArg json⟩
  have hdefault := @ofOption_inj Value Value.json (fun _ _ => Value.json_inj.mp) Value.json_ne_null
  simp only [json, ofFields_inj, List.cons.injEq, Prod.mk.injEq, ofString_inj, ValueType.name_inj,
    array.injEq, List.map_inj_right fun _ _ => Parameter.json_inj.mp, hdefault, true_and,
    and_true] at h
  obtain ⟨hname, htype, hsignature, hdefault⟩ := h
  cases f
  cases g
  rw [Fluent.mk.injEq]
  exact ⟨hname, htype, hsignature, hdefault⟩

theorem Fluent.json_plain (f : Fluent) : Plain f.json :=
  .record ⟨.text _, .text _, .map fun p _ => typedNameJson_plain p.name p.type,
    .option Value.json_plain _⟩

theorem FluentInstance.json_inj {i j : FluentInstance} : i.json = j.json ↔ i = j := by
  cases i
  cases j
  simp [json]

theorem FluentInstance.json_plain (i : FluentInstance) : Plain i.json :=
  .record ⟨.text _, .texts _⟩

/-! ## Actions -/

namespace Effect

theorem kindTag_inj {k k' : EffectKind} : kindTag k = kindTag k' ↔ k = k' := by
  cases k <;> cases k' <;> decide

theorem json_inj {e e' : Effect} : e.json = e'.json ↔ e = e' := by
  refine ⟨fun h => ?_, congrArg json⟩
  simp only [json, ofFields_inj, List.cons.injEq, Prod.mk.injEq, ofString_inj, array.injEq,
    List.map_inj_right fun _ _ => Expr.json_inj.mp, kindTag_inj, Expr.json_inj, true_and,
    and_true] at h
  obtain ⟨hfluent, hargs, hkind, hvalue, hcondition⟩ := h
  cases e
  cases e'
  rw [Effect.mk.injEq]
  exact ⟨hfluent, hargs, hkind, hvalue, hcondition⟩

theorem json_plain (e : Effect) : Plain e.json :=
  .record ⟨.text _, .map fun a _ => a.json_plain, .text _, e.value.json_plain,
    e.condition.json_plain⟩

end Effect

theorem Action.json_inj {a b : Action} : a.json = b.json ↔ a = b := by
  refine ⟨fun h => ?_, congrArg json⟩
  simp only [json, ofFields_inj, List.cons.injEq, Prod.mk.injEq, ofString_inj, array.injEq,
    List.map_inj_right fun _ _ => Parameter.json_inj.mp,
    List.map_inj_right fun _ _ => Expr.json_inj.mp,
    List.map_inj_right fun _ _ => Effect.json_inj.mp, true_and, and_true] at h
  obtain ⟨hname, hparameters, hpreconditions, heffects⟩ := h
  cases a
  cases b
  rw [Action.mk.injEq]
  exact ⟨hname, hparameters, hpreconditions, heffects⟩

theorem Action.json_plain (a : Action) : Plain a.json :=
  .record ⟨.text _, .map fun p _ => typedNameJson_plain p.name p.type, .map fun e _ => e.json_plain,
    .map fun e _ => e.json_plain⟩

/-! ## Metrics -/

/-- A sorted map is the list of its entries. -/
theorem SortedMap.entries_inj {κ ν : Type} [Ord κ] {m n : SortedMap κ ν} :
    m.entries = n.entries ↔ m = n := by
  cases m
  cases n
  simp

namespace QualityMetric

theorem costs_inj {costs costs' : SortedMap String Expr} :
    (costs.entries.map fun e => (e.1, e.2.json)) =
      (costs'.entries.map fun e => (e.1, e.2.json)) ↔ costs = costs' := by
  rw [List.map_inj_right, SortedMap.entries_inj]
  intro e e' h
  obtain ⟨haction, hcost⟩ := Prod.mk.inj h
  exact Prod.ext haction (Expr.json_inj.mp hcost)

theorem json_inj {m n : QualityMetric} : m.json = n.json ↔ m = n := by
  refine ⟨fun h => ?_, congrArg json⟩
  have hdefault := @ofOption_inj Expr Expr.json (fun _ _ => Expr.json_inj.mp) Expr.json_ne_null
  cases m with
  | planLength =>
    cases n with
    | planLength => rfl
    | _ => cases h
  | actionCosts costs default =>
    cases n with
    | planLength => cases h
    | actionCosts costs' default' =>
      simp only [json, ofField_inj, ofFields_inj, List.cons.injEq, Prod.mk.injEq, costs_inj,
        hdefault, true_and, and_true] at h
      rw [h.1, h.2]
    | minimizeFinal e => simp [json] at h
    | maximizeFinal e => simp [json] at h
  | minimizeFinal e =>
    cases n with
    | planLength => cases h
    | actionCosts costs default => simp [json] at h
    | minimizeFinal e' => rw [Expr.json_inj.mp (ofField_inj.mp h).2]
    | maximizeFinal e' => simp [json] at h
  | maximizeFinal e =>
    cases n with
    | planLength => cases h
    | actionCosts costs default => simp [json] at h
    | minimizeFinal e' => simp [json] at h
    | maximizeFinal e' => rw [Expr.json_inj.mp (ofField_inj.mp h).2]

theorem json_plain (m : QualityMetric) : Plain m.json := by
  cases m with
  | planLength => exact .text _
  | actionCosts costs default =>
    exact .field (.record ⟨.fields (List.forall_mem_map.mpr fun e _ => e.2.json_plain),
      .option Expr.json_plain _⟩)
  | minimizeFinal e => exact .field e.json_plain
  | maximizeFinal e => exact .field e.json_plain

end QualityMetric

/-! ## Types -/

namespace TypeHierarchy

def ParentsDeclared (h : TypeHierarchy) : Prop :=
  ∀ d ∈ h.declared, ∀ p, d.parent = some p → p ∈ h.names

def parentPosition (names : List String) (d : TypeDecl) : Option Nat :=
  d.parent.bind fun p => names.idxOf? p

theorem eq_of_parentPosition {names : List String} {d d' : TypeDecl}
    (hd : ∀ p, d.parent = some p → p ∈ names) (hd' : ∀ p, d'.parent = some p → p ∈ names)
    (h : parentPosition names d = parentPosition names d') : d.parent = d'.parent := by
  have hposition : ∀ p ∈ names, ∃ i, names.idxOf? p = some i ∧ names[i]? = some p := by
    intro p hp
    obtain ⟨i, hi⟩ := Option.ne_none_iff_exists'.mp fun hnone => List.idxOf?_eq_none_iff.mp hnone hp
    obtain ⟨hlt, hget, _⟩ := List.idxOf?_eq_some_iff.mp hi
    exact ⟨i, hi, List.getElem?_eq_some_iff.mpr ⟨hlt, hget⟩⟩
  unfold parentPosition at h
  cases hp : d.parent with
  | none =>
    cases hp' : d'.parent with
    | none => rfl
    | some p' =>
      obtain ⟨i, hi, _⟩ := hposition p' (hd' p' hp')
      rw [hp, hp', Option.bind_none, Option.bind_some, hi] at h
      cases h
  | some p =>
    obtain ⟨i, hi, hget⟩ := hposition p (hd p hp)
    cases hp' : d'.parent with
    | none =>
      rw [hp, hp', Option.bind_none, Option.bind_some, hi] at h
      cases h
    | some p' =>
      obtain ⟨i', hi', hget'⟩ := hposition p' (hd' p' hp')
      rw [hp, hp', Option.bind_some, Option.bind_some, hi, hi', Option.some.injEq] at h
      rw [← hget, ← hget', h]

/-- A type as it is listed in JSON: its name and the position of its parent. -/
def node (names : List String) (d : TypeDecl) : String × Option Nat :=
  (d.name, parentPosition names d)

def nodeJson (n : String × Option Nat) : Json :=
  .ofFields [("name", .ofString n.1), ("parent", .ofOption .ofNat n.2)]

theorem nodeJson_inj {m n : String × Option Nat} (h : nodeJson m = nodeJson n) : m = n := by
  have hparent := @ofOption_inj Nat Json.ofNat (fun _ _ => ofNat_inj.mp) fun _ => nofun
  simp only [nodeJson, ofFields_inj, List.cons.injEq, Prod.mk.injEq, ofString_inj, hparent,
    true_and, and_true] at h
  exact Prod.ext h.1 h.2

theorem json_eq_nodes (h : TypeHierarchy) :
    h.json = .ofField "nodes" (.array ((h.declared.reverse.map (node h.names)).map nodeJson)) := by
  rw [List.map_map]
  rfl

theorem json_inj {h h' : TypeHierarchy} (hh : h.ParentsDeclared) (hh' : h'.ParentsDeclared) :
    h.json = h'.json ↔ h = h' := by
  refine ⟨fun heq => ?_, congrArg json⟩
  rw [json_eq_nodes, json_eq_nodes, ofField_inj, array.injEq,
    List.map_inj_right fun _ _ => nodeJson_inj] at heq
  -- the same names, which the positions of parents refer to
  have hnodes := heq.2
  have hnames : h.names = h'.names := by
    have hfirst := congrArg (List.map Prod.fst) hnodes
    rw [List.map_map, List.map_map] at hfirst
    rw [names, names, ← List.map_reverse, ← List.map_reverse]
    exact hfirst
  rw [hnames] at hnodes
  have hdeclared : h.declared.reverse = h'.declared.reverse := by
    refine eq_of_map_eq hnodes fun d hd d' hd' hdd' => ?_
    obtain ⟨hname, hposition⟩ := Prod.mk.inj hdd'
    have hd : ∀ p, d.parent = some p → p ∈ h'.names := hnames ▸ hh d (List.mem_reverse.mp hd)
    have hparent := eq_of_parentPosition hd (hh' d' (List.mem_reverse.mp hd')) hposition
    cases d
    cases d'
    rw [TypeDecl.mk.injEq]
    exact ⟨hname, hparent⟩
  cases h
  cases h'
  rw [TypeHierarchy.mk.injEq]
  exact List.reverse_inj.mp hdeclared

theorem json_plain (h : TypeHierarchy) : Plain h.json :=
  .field (.map fun _ _ => .record ⟨.text _, .option Plain.nat _⟩)

/-- In a hierarchy that is declared in order, parents are declared. -/
theorem InOrder.parentsDeclared {h : TypeHierarchy} (hh : h.InOrder) : h.ParentsDeclared := by
  intro d hd p hp
  have hlt : h.names.idxOf p < h.names.length :=
    Nat.lt_of_lt_of_le (hh.idxOf_parent_lt hd hp) List.idxOf_le_length
  exact List.idxOf_lt_length_iff.mp hlt

end TypeHierarchy

/-! ## Problems -/

namespace Problem

/-- The same content: the same declarations in the same order, and the same initial values, in
whatever order they were set. -/
structure SameContent (P Q : Problem) : Prop where
  name : P.name = Q.name
  types : P.types.declared = Q.types.declared
  objects : P.objects = Q.objects
  fluents : P.fluents = Q.fluents
  initialValues : ∀ i, P.initialValues.get? i = Q.initialValues.get? i
  actions : P.actions = Q.actions
  goals : P.goals = Q.goals
  metrics : P.metrics = Q.metrics

theorem sameContent_iff {P Q : Problem} : P.SameContent Q ↔ P = Q := by
  constructor
  · intro h
    have htypes : P.types = Q.types := by
      rw [TypeHierarchy.mk.injEq]
      exact h.types
    have hvocabulary : P.toVocabulary = Q.toVocabulary := by
      rw [Vocabulary.mk.injEq]
      exact ⟨htypes, h.objects, h.fluents⟩
    have hvalues : P.initialValues = Q.initialValues := SortedMap.ext_get? h.initialValues
    rw [Problem.mk.injEq]
    exact ⟨hvocabulary, h.name, hvalues, h.actions, h.goals, h.metrics⟩
  · rintro rfl
    exact ⟨rfl, rfl, rfl, rfl, fun _ => rfl, rfl, rfl, rfl⟩

def entryJson (e : FluentInstance × Value) : Json := .array [e.1.json, e.2.json]

theorem entryJson_inj {e e' : FluentInstance × Value} (h : entryJson e = entryJson e') :
    e = e' := by
  simp only [entryJson, array.injEq, List.cons.injEq, FluentInstance.json_inj, Value.json_inj,
    and_true] at h
  exact Prod.ext h.1 h.2

theorem json_inj {P Q : Problem} (hP : P.Built) (hQ : Q.Built) : P.json = Q.json ↔ P = Q := by
  refine ⟨fun h => ?_, congrArg json⟩
  have htypes := TypeHierarchy.json_inj hP.wellTyped.vocabulary.types.parentsDeclared
    hQ.wellTyped.vocabulary.types.parentsDeclared
  have hentries : ∀ m n : SortedMap FluentInstance Value,
      m.entries.map (fun e => Json.array [e.1.json, e.2.json]) =
        n.entries.map (fun e => Json.array [e.1.json, e.2.json]) ↔ m = n := by
    intro m n
    change m.entries.map entryJson = n.entries.map entryJson ↔ m = n
    rw [List.map_inj_right fun _ _ => entryJson_inj, SortedMap.entries_inj]
  simp only [json, ofFields_inj, List.cons.injEq, Prod.mk.injEq, ofString_inj, array.injEq, htypes,
    hentries, List.map_inj_right fun _ _ => Object.json_inj.mp,
    List.map_inj_right fun _ _ => Fluent.json_inj.mp,
    List.map_inj_right fun _ _ => Action.json_inj.mp,
    List.map_inj_right fun _ _ => Expr.json_inj.mp,
    List.map_inj_right fun _ _ => QualityMetric.json_inj.mp, true_and, and_true] at h
  obtain ⟨hname, htypes, hobjects, hfluents, hvalues, hactions, hgoals, hmetrics⟩ := h
  exact sameContent_iff.mp ⟨hname, congrArg _ htypes, hobjects, hfluents,
    fun i => congrArg (SortedMap.get? · i) hvalues, hactions, hgoals, hmetrics⟩

theorem json_plain (P : Problem) : Plain P.json :=
  .record ⟨.text _, P.types.json_plain, .map fun o _ => typedNameJson_plain o.name o.type,
    .map fun f _ => f.json_plain, .map fun e _ => .tuple ⟨e.1.json_plain, e.2.json_plain⟩,
    .map fun a _ => a.json_plain, .map fun e _ => e.json_plain, .map fun m _ => m.json_plain⟩

/-- The JSON text of a built problem determines the problem. -/
theorem Built.render_inj {P Q : Problem} (hP : P.Built) (hQ : Q.Built) :
    P.json.render = Q.json.render ↔ P = Q := by
  rw [← json_inj hP hQ]
  exact ⟨Json.render_inj P.json_plain Q.json_plain, congrArg render⟩

end Problem

/-! ## Fingerprints -/

/-- SHA-256 does not collide on some texts: those of them that have the same digest are the same. -/
def DigestsApart (texts : List String) : Prop :=
  ∀ s ∈ texts, ∀ t ∈ texts, Sha256.textDigest s = Sha256.textDigest t → s = t

namespace DigestsApart

theorem mono {texts fewer : List String} (h : DigestsApart texts) (hsub : fewer ⊆ texts) :
    DigestsApart fewer :=
  fun s hs t ht => h s (hsub hs) t (hsub ht)

theorem of_ne {s t : String} (h : Sha256.textDigest s ≠ Sha256.textDigest t) :
    DigestsApart [s, t] := by
  simp [DigestsApart, h, h.symm]

/-- The fingerprint is the digest of the document in hexadecimal, which loses nothing. -/
theorem render_eq {texts : List String} (h : DigestsApart texts) {P Q : Problem}
    (hP : P.json.render ∈ texts) (hQ : Q.json.render ∈ texts)
    (hfingerprint : P.fingerprint = Q.fingerprint) : P.json.render = Q.json.render := by
  apply h _ hP _ hQ
  exact Sha256.hex_inj.mp hfingerprint

end DigestsApart

namespace Problem

/-- The document of a built problem says what its content is, and nothing else: not which problem
it is, nor the order in which initial values were set. So equal contents share a fingerprint, and
as long as SHA-256 does not collide on the documents, other contents have another one. -/
theorem document_iff_sameContent {P Q : Identified Problem} (hP : P.content.Built)
    (hQ : Q.content.Built) :
    (P.content.json.render = Q.content.json.render ↔ P.content.SameContent Q.content) ∧
      (P.content.SameContent Q.content → P.content.fingerprint = Q.content.fingerprint) ∧
      (DigestsApart [P.content.json.render, Q.content.json.render] →
        ¬ P.content.SameContent Q.content → P.content.fingerprint ≠ Q.content.fingerprint) := by
  have hdocument : P.content.json.render = Q.content.json.render ↔
      P.content.SameContent Q.content := (hP.render_inj hQ).trans sameContent_iff.symm
  refine ⟨hdocument, ?_, ?_⟩
  · intro hsame
    rw [fingerprint, fingerprint, hdocument.mpr hsame]
  · intro hdigests hother hfingerprint
    apply hother
    apply hdocument.mp
    exact hdigests.render_eq (by simp) (by simp) hfingerprint

end Problem

namespace Examples

/-- Two lamps, with names that need escapes, after some calls. -/
def lamps (calls : List BuilderCall) : Problem :=
  .build "lamps" ([.addFluent ⟨"\"red\"", .bool, [], some (.bool false)⟩,
    .addFluent ⟨"green\\\n", .bool, [], none⟩] ++ calls)

def lightRed : BuilderCall := .setTrue "\"red\"" []

def lightGreen : BuilderCall := .setInitialValue ⟨"green\\\n", []⟩ (.bool true)

end Examples

namespace Problem

open Examples

/-- It does not matter which lamp is lit first. With only one of them lit the problem is another one
and has another fingerprint. -/
theorem document_iff_sameContent_lamps :
    (lamps [lightRed, lightGreen]).json.render = (lamps [lightGreen, lightRed]).json.render ∧
      (lamps [lightRed, lightGreen]).fingerprint = (lamps [lightGreen, lightRed]).fingerprint ∧
      (lamps [lightRed]).json.render ≠ (lamps [lightRed, lightGreen]).json.render ∧
      (lamps [lightRed]).fingerprint ≠ (lamps [lightRed, lightGreen]).fingerprint := by
  have hbuilt (calls : List BuilderCall) : (lamps calls).Built := ⟨_, _, rfl⟩
  have hsame : (lamps [lightRed, lightGreen]).SameContent (lamps [lightGreen, lightRed]) :=
    sameContent_iff.mpr (by decide +kernel)
  have hother : ¬ (lamps [lightRed]).SameContent (lamps [lightRed, lightGreen]) := by
    rw [sameContent_iff]
    decide +kernel
  have hdigests : DigestsApart
      [(lamps [lightRed]).json.render, (lamps [lightRed, lightGreen]).json.render] :=
    .of_ne (by decide +kernel)
  -- two problems, and one problem before and after a change
  obtain ⟨hdocument, hfingerprint, _⟩ := document_iff_sameContent (P := ⟨0, _⟩) (Q := ⟨1, _⟩)
    (hbuilt [lightRed, lightGreen]) (hbuilt [lightGreen, lightRed])
  obtain ⟨hchanged, _, hnew⟩ := document_iff_sameContent (P := ⟨0, _⟩) (Q := ⟨0, _⟩)
    (hbuilt [lightRed]) (hbuilt [lightRed, lightGreen])
  refine ⟨hdocument.mpr hsame, hfingerprint hsame, ?_, hnew hdigests hother⟩
  intro heq
  exact hother (hchanged.mp heq)

end Problem

end LiftedPlanning
