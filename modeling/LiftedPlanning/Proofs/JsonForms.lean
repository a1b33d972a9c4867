import LiftedPlanning.Expr.Basic
import LiftedPlanning.Proofs.JsonReading
import Mathlib.Data.List.Basic
import Std.Data.String.ToInt

/-!
# JSON forms of values and expressions

Equal JSON forms come from equal things: from equal numbers, values, typed names and expressions
(`Rational.json_inj`, `Value.json_inj`, `Expr.json_inj`). The form of an expression is one field,
whose key tells the outermost operator (`Expr.operator_eq_of_json`).

All forms are plain values, so texts determine them.
-/

namespace LiftedPlanning

/-- A list is determined by its image if every element is. -/
theorem eq_of_map_eq {α β : Type} {f : α → β} {as bs : List α} (h : as.map f = bs.map f)
    (hf : ∀ a ∈ as, ∀ b ∈ bs, f a = f b → a = b) : as = bs := by
  induction as generalizing bs with
  | nil => exact (List.map_eq_nil_iff.mp h.symm).symm
  | cons a as ih =>
    cases bs with
    | nil => cases h
    | cons b bs =>
      obtain ⟨hab, hrest⟩ := List.cons.inj h
      have ha : a = b := hf a List.mem_cons_self b List.mem_cons_self hab
      have has : as = bs := ih hrest fun x hx y hy =>
        hf x (List.mem_cons_of_mem _ hx) y (List.mem_cons_of_mem _ hy)
      rw [ha, has]

/-! ## Builders of JSON values -/

namespace Json

theorem literalOf_inj {s t : String} : literalOf s = literalOf t ↔ s = t := by
  refine ⟨fun h => ?_, congrArg literalOf⟩
  have htext := textOf?_literalOf s
  rw [h, textOf?_literalOf] at htext
  exact (Option.some.inj htext).symm

@[simp] theorem ofString_inj {s t : String} : ofString s = ofString t ↔ s = t := by
  rw [ofString, ofString, string.injEq, literalOf_inj]

@[simp] theorem ofInt_inj {m n : Int} : ofInt m = ofInt n ↔ m = n := by
  rw [ofInt, ofInt, number.injEq, Int.toString_eq_repr, Int.toString_eq_repr, Int.repr_inj]

theorem ofNat_eq_ofInt (n : Nat) : ofNat n = ofInt n := rfl

@[simp] theorem ofNat_inj {m n : Nat} : ofNat m = ofNat n ↔ m = n := by
  rw [ofNat_eq_ofInt, ofNat_eq_ofInt, ofInt_inj, Int.ofNat_inj]

@[simp] theorem ofStrings_inj {ss ts : List String} : ofStrings ss = ofStrings ts ↔ ss = ts := by
  rw [ofStrings, ofStrings, array.injEq, List.map_inj_right fun _ _ => ofString_inj.mp]

@[simp] theorem ofFields_inj {fs gs : List (String × Json)} :
    ofFields fs = ofFields gs ↔ fs = gs := by
  rw [ofFields, ofFields, object.injEq, List.map_inj_right]
  intro f g h
  obtain ⟨hkey, hvalue⟩ := Prod.mk.inj h
  exact Prod.ext (literalOf_inj.mp hkey) hvalue

@[simp] theorem ofField_inj {k l : String} {j j' : Json} :
    ofField k j = ofField l j' ↔ k = l ∧ j = j' := by
  rw [ofField, ofField, ofFields_inj, List.cons.injEq, Prod.mk.injEq]
  exact and_iff_left rfl

theorem ofOption_inj {α : Type} {f : α → Json} (hf : ∀ a b, f a = f b → a = b)
    (hnull : ∀ a, f a ≠ .null) {x y : Option α} : ofOption f x = ofOption f y ↔ x = y := by
  refine ⟨fun h => ?_, congrArg (ofOption f)⟩
  cases x with
  | none =>
    cases y with
    | none => rfl
    | some b => exact absurd h.symm (hnull b)
  | some a =>
    cases y with
    | none => exact absurd h (hnull a)
    | some b => rw [hf a b h]

theorem Plain.nat (n : Nat) : Plain (ofNat n) := .integer n

theorem Plain.texts (ss : List String) : Plain (ofStrings ss) :=
  .array (List.forall_mem_map.mpr fun s _ => .text s)

theorem Plain.field {k : String} {j : Json} (h : Plain j) : Plain (ofField k j) :=
  .fields (List.forall_mem_singleton.mpr h)

/-- A record of plain values, one after the other. -/
theorem Plain.record {fields : List (String × Json)} (h : fields.Forall fun f => Plain f.2) :
    Plain (ofFields fields) :=
  .fields (List.forall_iff_forall_mem.mp h)

/-- A tuple of plain values, one after the other. -/
theorem Plain.tuple {items : List Json} (h : items.Forall Plain) : Plain (.array items) :=
  .array (List.forall_iff_forall_mem.mp h)

theorem Plain.map {α : Type} {f : α → Json} {as : List α} (h : ∀ a ∈ as, Plain (f a)) :
    Plain (.array (as.map f)) :=
  .array (List.forall_mem_map.mpr h)

theorem Plain.option {α : Type} {f : α → Json} (h : ∀ a, Plain (f a)) (x : Option α) :
    Plain (ofOption f x) := by
  cases x with
  | none => exact .null
  | some a => exact h a

end Json

open Json

/-! ## Numbers and values -/

namespace Rational

theorem digits_zero : digits 0 = [] := by
  rw [digits, if_pos rfl]

theorem digits_of_ne_zero {n : Nat} (h : n ≠ 0) :
    digits n = n % digitBase :: digits (n / digitBase) := by
  rw [digits, if_neg h]

theorem digits_inj {m n : Nat} (h : digits m = digits n) : m = n := by
  induction m using Nat.strongRecOn generalizing n with
  | ind m ih =>
    by_cases hm : m = 0
    · by_cases hn : n = 0
      · rw [hm, hn]
      · rw [hm, digits_zero, digits_of_ne_zero hn] at h
        cases h
    · by_cases hn : n = 0
      · rw [hn, digits_zero, digits_of_ne_zero hm] at h
        cases h
      · rw [digits_of_ne_zero hm, digits_of_ne_zero hn] at h
        obtain ⟨hlow, hhigh⟩ := List.cons.inj h
        have hquotient := ih _ (Nat.div_lt_self (Nat.pos_of_ne_zero hm) (by decide)) hhigh
        rw [← Nat.div_add_mod m digitBase, ← Nat.div_add_mod n digitBase, hlow, hquotient]

theorem integerJson_inj {m n : Int} (h : integerJson m = integerJson n) : m = n := by
  simp only [integerJson, array.injEq, List.cons.injEq, ofInt_inj, and_true] at h
  obtain ⟨hsign, hdigits⟩ := h
  have hsize := digits_inj ((List.map_inj_right fun _ _ => ofNat_inj.mp).mp hdigits)
  rw [← Int.sign_mul_natAbs m, ← Int.sign_mul_natAbs n, hsign, hsize]

theorem json_inj {p q : Rat} (h : json p = json q) : p = q := by
  simp only [json, array.injEq, List.cons.injEq, and_true] at h
  exact Rat.ext (integerJson_inj h.1) (Int.ofNat_inj.mp (integerJson_inj h.2))

theorem integerJson_plain (n : Int) : Plain (integerJson n) :=
  .tuple ⟨.integer _, .map fun d _ => .nat d⟩

theorem json_plain (q : Rat) : Plain (json q) :=
  .tuple ⟨integerJson_plain _, integerJson_plain _⟩

end Rational

namespace Value

theorem json_inj {v w : Value} : v.json = w.json ↔ v = w := by
  refine ⟨fun h => ?_, congrArg json⟩
  cases v with
  | bool b =>
    cases w with
    | bool c => simpa [json] using h
    | _ => simp [json] at h
  | number p =>
    cases w with
    | number q => exact congrArg number (Rational.json_inj (ofField_inj.mp h).2)
    | _ => simp [json] at h
  | object o =>
    cases w with
    | object o' => simpa [json] using h
    | _ => simp [json] at h

theorem json_plain (v : Value) : Plain v.json := by
  cases v with
  | bool b => exact .field (.bool b)
  | number q => exact .field (Rational.json_plain q)
  | object o => exact .field (.text o)

end Value

/-! ## Typed names -/

theorem Parameter.json_inj {p q : Parameter} : p.json = q.json ↔ p = q := by
  cases p
  cases q
  simp [json, typedNameJson]

theorem Object.json_inj {o o' : Object} : o.json = o'.json ↔ o = o' := by
  cases o
  cases o'
  simp [json, typedNameJson]

theorem typedNameJson_plain (name type : String) : Plain (typedNameJson name type) :=
  .record ⟨.text name, .text type⟩

/-! ## Expressions -/

namespace Expr

namespace Operator

/-- The operator of a tag; all tags but those of operators are tags of values. -/
def ofTag (tag : String) : Operator :=
  match tag with
  | "Var" => var
  | "Fluent" => fluent
  | "Not" => not
  | "And" => junction .and
  | "Or" => junction .or
  | "Plus" => series .plus
  | "Times" => series .times
  | "Implies" => binary .implies
  | "Iff" => binary .iff
  | "Equals" => binary .equals
  | "Le" => binary .le
  | "Lt" => binary .lt
  | "Minus" => binary .minus
  | "Div" => binary .div
  | "Forall" => quantified .universal
  | "Exists" => quantified .existential
  | _ => const

theorem ofTag_junctionTag (op : Junction) : ofTag (junctionTag op) = junction op := by
  cases op <;> rfl

theorem ofTag_seriesTag (op : Series) : ofTag (seriesTag op) = series op := by
  cases op <;> rfl

theorem ofTag_binaryTag (op : BinaryOp) : ofTag (binaryTag op) = binary op := by
  cases op <;> rfl

theorem ofTag_quantifierTag (q : Quantifier) : ofTag (quantifierTag q) = quantified q := by
  cases q <;> rfl

end Operator

/-- The JSON form is one field, whose key tells the operator. -/
theorem json_eq_ofField (e : Expr) :
    ∃ tag body, e.json = .ofField tag body ∧ Operator.ofTag tag = e.operator := by
  cases e with
  | const v => cases v <;> exact ⟨_, _, rfl, rfl⟩
  | var x => exact ⟨_, _, rfl, rfl⟩
  | fluent f args => exact ⟨_, _, rfl, rfl⟩
  | not e => exact ⟨_, _, rfl, rfl⟩
  | junction op es => exact ⟨_, _, rfl, Operator.ofTag_junctionTag op⟩
  | series op es => exact ⟨_, _, rfl, Operator.ofTag_seriesTag op⟩
  | binary op a b => exact ⟨_, _, rfl, Operator.ofTag_binaryTag op⟩
  | quantified q vars body => exact ⟨_, _, rfl, Operator.ofTag_quantifierTag q⟩

theorem operator_eq_of_json {a b : Expr} (h : a.json = b.json) : a.operator = b.operator := by
  obtain ⟨tag, body, hjson, htag⟩ := json_eq_ofField a
  obtain ⟨tag', body', hjson', htag'⟩ := json_eq_ofField b
  rw [hjson, hjson', ofField_inj] at h
  rw [← htag, ← htag', h.1]

theorem json_inj {a b : Expr} : a.json = b.json ↔ a = b := by
  refine ⟨fun h => ?_, congrArg json⟩
  have hop := operator_eq_of_json h
  induction a generalizing b with
  | const v =>
    cases b with
    | const w => exact congrArg const (Value.json_inj.mp h)
    | _ => cases hop
  | var x =>
    cases b with
    | var y => exact congrArg var (ofString_inj.mp (ofField_inj.mp h).2)
    | _ => cases hop
  | fluent f args ih =>
    cases b with
    | fluent g args' =>
      simp only [json, jsonOfAll_eq, ofField_inj, array.injEq, List.cons.injEq, ofString_inj,
        true_and, and_true] at h
      have hargs := eq_of_map_eq h.2 fun a ha b _ hab => ih a ha hab (operator_eq_of_json hab)
      rw [h.1, hargs]
    | _ => cases hop
  | not e ih =>
    cases b with
    | not e' =>
      have hbody := (ofField_inj.mp h).2
      rw [ih hbody (operator_eq_of_json hbody)]
    | _ => cases hop
  | junction op es ih =>
    cases b with
    | junction op' es' =>
      cases hop
      simp only [json, jsonOfAll_eq, ofField_inj, array.injEq, true_and] at h
      rw [eq_of_map_eq h fun a ha b _ hab => ih a ha hab (operator_eq_of_json hab)]
    | _ => cases hop
  | series op es ih =>
    cases b with
    | series op' es' =>
      cases hop
      simp only [json, jsonOfAll_eq, ofField_inj, array.injEq, true_and] at h
      rw [eq_of_map_eq h fun a ha b _ hab => ih a ha hab (operator_eq_of_json hab)]
    | _ => cases hop
  | binary op a b iha ihb =>
    cases b with
    | binary op' a' b' =>
      cases hop
      simp only [json, ofField_inj, array.injEq, List.cons.injEq, true_and, and_true] at h
      rw [iha h.1 (operator_eq_of_json h.1), ihb h.2 (operator_eq_of_json h.2)]
    | _ => cases hop
  | quantified q vars body ih =>
    cases b with
    | quantified q' vars' body' =>
      cases hop
      simp only [json, ofField_inj, array.injEq, List.cons.injEq, true_and, and_true] at h
      have hvars := (List.map_inj_right fun _ _ => Parameter.json_inj.mp).mp h.1
      rw [hvars, ih h.2 (operator_eq_of_json h.2)]
    | _ => cases hop

theorem json_ne_null (e : Expr) : e.json ≠ .null := by
  obtain ⟨tag, body, hjson, _⟩ := json_eq_ofField e
  rw [hjson]
  exact nofun

theorem json_plain (e : Expr) : Plain e.json := by
  induction e with
  | const v => exact v.json_plain
  | var x => exact .field (.text x)
  | fluent f args ih =>
    rw [json, jsonOfAll_eq]
    exact .field (.tuple ⟨.text f, .map ih⟩)
  | not e ih => exact .field ih
  | junction op es ih =>
    rw [json, jsonOfAll_eq]
    exact .field (.map ih)
  | series op es ih =>
    rw [json, jsonOfAll_eq]
    exact .field (.map ih)
  | binary op a b iha ihb =>
    exact .field (.tuple ⟨iha, ihb⟩)
  | quantified q vars body ih =>
    exact .field (.tuple ⟨.map fun p _ => typedNameJson_plain p.name p.type, ih⟩)

end Expr

end LiftedPlanning
