import LiftedPlanning.Plan
import LiftedPlanning.Proofs.JsonForms
import LiftedPlanning.Proofs.Outcome

/-!
# Reading plans back

A plan is read back from the text it is written as (`Plan.parse?_render_json`), whatever characters
its names have. The text determines the JSON value (`Json.parse?_render`); what remains is that a
record gives its fields by their names (`Json.record?_ofFields`) and a list its items.
-/

namespace LiftedPlanning

/-! ## Records -/

namespace Json

/-- The fields of a written record are found by the texts of their keys. -/
theorem fieldValues?_ofFields (fields : List (String × Json)) (name : String) :
    fieldValues? (fields.map fun f => (literalOf f.1, f.2)) name =
      some ((fields.filter fun f => f.1 = name).map Prod.snd) := by
  induction fields with
  | nil => rfl
  | cons f fields ih =>
    rw [List.map_cons, fieldValues?, textOf?_literalOf, ih]
    by_cases hf : f.1 = name
    · simp [hf]
    · simp [hf]

/-- Where keys occur once, the key of an element finds this element alone. -/
theorem filter_key_eq {α κ : Type} [DecidableEq κ] {key : α → κ} {l : List α}
    (h : (l.map key).Nodup) {a : α} (ha : a ∈ l) : (l.filter fun x => key x = key a) = [a] := by
  induction l with
  | nil => cases ha
  | cons b l ih =>
    obtain ⟨hb, hl⟩ := List.nodup_cons.mp h
    have hne : ∀ x ∈ l, key x ≠ key b := fun x hx heq => hb (heq ▸ List.mem_map_of_mem hx)
    rcases List.mem_cons.mp ha with rfl | ha
    · rw [List.filter_cons_of_pos (by simp), List.filter_eq_nil_iff.mpr (by simpa using hne)]
    · rw [List.filter_cons_of_neg (by simpa using (hne a ha).symm), ih hl ha]

/-- A written record in which names occur once gives every field. -/
theorem record?_ofFields (fields : List (String × Json)) (h : (fields.map Prod.fst).Nodup) :
    (ofFields fields).record? (fields.map Prod.fst) = some (fields.map fun f => some f.2) := by
  rw [ofFields, record?, List.mapM_map]
  refine mapM_eq_pure fun f hf => ?_
  rw [Function.comp_apply, field?, fieldValues?_ofFields, filter_key_eq h hf]
  rfl

end Json

/-! ## Plans -/

open Json

theorem ActionInstance.json_plain (i : ActionInstance) : Plain i.json :=
  .record ⟨.text _, .texts _⟩

theorem Plan.json_plain (p : Plan) : Plain p.json :=
  .field (.map fun i _ => i.json_plain)

/-- A list is read back item by item. -/
theorem mapM_map_eq_some {α β : Type} {f : α → β} {g : β → Option α} (h : ∀ a, g (f a) = some a)
    (as : List α) : (as.map f).mapM g = some as := by
  have hread : as.mapM (g ∘ f) = some (as.map id) := mapM_eq_pure fun a _ => h a
  rw [List.mapM_map, hread, List.map_id]

theorem ActionInstance.ofJson?_json (i : ActionInstance) : ofJson? i.json = some i := by
  have hrecord : i.json.record? ["action", "args"] =
      some [some (.ofString i.action), some (.ofStrings i.args)] :=
    record?_ofFields [("action", .ofString i.action), ("args", .ofStrings i.args)] (by simp)
  have hargs : (i.args.map ofString).mapM text? = some i.args :=
    mapM_map_eq_some text?_ofString i.args
  simp [ofJson?, hrecord, ofStrings, items?, hargs]

theorem Plan.ofJson?_json (p : Plan) : ofJson? p.json = some p := by
  have hrecord : p.json.record? ["actions"] = some [some (.array (p.map ActionInstance.json))] :=
    record?_ofFields [("actions", .array (p.map ActionInstance.json))] (by simp)
  have hsteps : (p.map ActionInstance.json).mapM ActionInstance.ofJson? = some p :=
    mapM_map_eq_some ActionInstance.ofJson?_json p
  simp [ofJson?, hrecord, items?, hsteps]

/-- A plan is read back from its text: all steps in order, each with its action and arguments. -/
theorem Plan.parse?_render_json (p : Plan) : parse? p.json.render = some p := by
  rw [parse?, Json.parse?_render p.json_plain, Option.bind_eq_bind, Option.bind_some]
  exact p.ofJson?_json

/-- A quote and a control character are escaped, and a letter outside of ASCII is not. -/
example : (Plan.json [⟨"go", ["p\"1", "t\x01", "ö"]⟩]).render =
    "\x7b\"actions\":[\x7b\"action\":\"go\",\"args\":[\"p\\\"1\",\"t\\u0001\",\"ö\"]\x7d]\x7d" := by
  cbv

end LiftedPlanning
