import LiftedPlanning.Json.Literal

/-!
# JSON values

A JSON value keeps its scalars as they are written: a number is its numeral and a string the
literal between its quotes. So writing a value (`Json.render`) is only a matter of punctuation,
and what a scalar denotes is asked for where it matters: `Json.nat?` for counts, `Json.text?` for
texts.
-/

namespace LiftedPlanning

/-- A JSON value. Object keys are string literals, in written order. -/
inductive Json where
  | null
  | bool (b : Bool)
  | number (numeral : String)
  | string (literal : String)
  | array (items : List Json)
  | object (fields : List (String × Json))

namespace Json

/-- Induction over JSON values, with the hypothesis for every element and every field value. -/
@[induction_eliminator]
theorem induct {motive : Json → Prop}
    (null : motive .null)
    (bool : ∀ b, motive (.bool b))
    (number : ∀ n, motive (.number n))
    (string : ∀ s, motive (.string s))
    (array : ∀ items, (∀ j ∈ items, motive j) → motive (.array items))
    (object : ∀ fields, (∀ f ∈ fields, motive f.2) → motive (.object fields))
    (j : Json) : motive j :=
  @Json.rec motive (fun items => ∀ j ∈ items, motive j) (fun fields => ∀ f ∈ fields, motive f.2)
    (fun f => motive f.2)
    null bool number string array object
    (fun _ h => nomatch h)
    (fun _ _ hhead htail _ h => by
      rcases List.mem_cons.mp h with rfl | h
      · exact hhead
      · exact htail _ h)
    (fun _ h => nomatch h)
    (fun _ _ hhead htail _ h => by
      rcases List.mem_cons.mp h with rfl | h
      · exact hhead
      · exact htail _ h)
    (fun _ _ h => h)
    j

/-! ## Building -/

def literalOf (s : String) : String := String.ofList (escape s.toList)

@[simp] theorem toList_literalOf (s : String) : (literalOf s).toList = escape s.toList :=
  String.toList_ofList

def ofString (s : String) : Json := string (literalOf s)

def ofInt (n : Int) : Json := number (toString n)

def ofNat (n : Nat) : Json := number (toString n)

def ofStrings (ss : List String) : Json := array (ss.map ofString)

def ofFields (fields : List (String × Json)) : Json :=
  object (fields.map fun f => (literalOf f.1, f.2))

def ofField (key : String) (value : Json) : Json := ofFields [(key, value)]

def ofOption {α : Type} (f : α → Json) : Option α → Json
  | none => null
  | some a => f a

/-! ## Writing

The text of a value is made from left to right, each part being put behind what is there already.
The equations that follow say what the text is: `render_array` and `render_object`. -/

mutual

/-- Writes the compact text of a value behind a text. -/
def renderOnto (acc : String) : Json → String
  | null => acc ++ "null"
  | bool b => acc ++ if b then "true" else "false"
  | number n => acc ++ n
  | string s => acc ++ "\"" ++ s ++ "\""
  | array items => renderItemsOnto (acc ++ "[") items ++ "]"
  | object fields => renderFieldsOnto (acc ++ "\x7b") fields ++ "\x7d"

def renderItemsOnto (acc : String) : List Json → String
  | [] => acc
  | [j] => renderOnto acc j
  | j :: k :: rest => renderItemsOnto (renderOnto acc j ++ ",") (k :: rest)

def renderFieldsOnto (acc : String) : List (String × Json) → String
  | [] => acc
  | [(k, j)] => renderOnto (acc ++ "\"" ++ k ++ "\":") j
  | (k, j) :: f :: rest =>
    renderFieldsOnto (renderOnto (acc ++ "\"" ++ k ++ "\":") j ++ ",") (f :: rest)

end

/-- The compact text of a value: no blanks, fields in their order. -/
def render (j : Json) : String := renderOnto "" j

def renderField (f : String × Json) : String := "\"" ++ f.1 ++ "\":" ++ render f.2

theorem renderItemsOnto_eq {items : List Json}
    (h : ∀ j ∈ items, ∀ acc, renderOnto acc j = acc ++ render j) (acc : String) :
    renderItemsOnto acc items = acc ++ ",".intercalate (items.map render) := by
  induction items generalizing acc with
  | nil => simp [renderItemsOnto]
  | cons j rest ih =>
    cases rest with
    | nil => simp [renderItemsOnto, h]
    | cons k rest =>
      rw [renderItemsOnto, ih fun x hx => h x (List.mem_cons_of_mem _ hx),
        h j (List.mem_cons_self ..)]
      simp [String.append_assoc]

theorem renderFieldsOnto_eq {fields : List (String × Json)}
    (h : ∀ f ∈ fields, ∀ acc, renderOnto acc f.2 = acc ++ render f.2) (acc : String) :
    renderFieldsOnto acc fields = acc ++ ",".intercalate (fields.map renderField) := by
  induction fields generalizing acc with
  | nil => simp [renderFieldsOnto]
  | cons f rest ih =>
    obtain ⟨k, j⟩ := f
    cases rest with
    | nil =>
      rw [renderFieldsOnto, h (k, j) (List.mem_cons_self ..)]
      simp [renderField, String.append_assoc]
    | cons g rest =>
      rw [renderFieldsOnto, ih fun x hx => h x (List.mem_cons_of_mem _ hx),
        h (k, j) (List.mem_cons_self ..)]
      simp [renderField, String.append_assoc]

theorem renderOnto_eq (acc : String) (j : Json) : renderOnto acc j = acc ++ render j := by
  induction j generalizing acc with
  | null => simp [render, renderOnto]
  | bool b => simp [render, renderOnto]
  | number n => simp [render, renderOnto]
  | string s => simp [render, renderOnto, String.append_assoc]
  | array items ih =>
    simp [render, renderOnto, renderItemsOnto_eq ih, String.append_assoc]
  | object fields ih =>
    simp [render, renderOnto, renderFieldsOnto_eq ih, String.append_assoc]

theorem render_array (items : List Json) :
    render (array items) = "[" ++ ",".intercalate (items.map render) ++ "]" := by
  simp [render, renderOnto, renderItemsOnto_eq fun j _ acc => renderOnto_eq acc j]

theorem render_object (fields : List (String × Json)) :
    render (object fields) = "\x7b" ++ ",".intercalate (fields.map renderField) ++ "\x7d" := by
  simp [render, renderOnto, renderFieldsOnto_eq fun f _ acc => renderOnto_eq acc f.2]

/-! ## Meaning of scalars -/

def textOf? (literal : String) : Option String := (unescape? literal.toList).map String.ofList

def text? : Json → Option String
  | string s => textOf? s
  | _ => none

@[simp] theorem textOf?_literalOf (s : String) : textOf? (literalOf s) = some s := by
  simp [textOf?]

@[simp] theorem text?_ofString (s : String) : (ofString s).text? = some s := textOf?_literalOf s

def digitsValue (ds : List Char) : Nat := ds.foldl (fun n d => n * 10 + (d.toNat - 48)) 0

/-- A numeral without sign, fraction and exponent is a natural number. -/
def nat? : Json → Option Nat
  | number n => if n.toList.all Char.isDigit then some (digitsValue n.toList) else none
  | _ => none

def bool? : Json → Option Bool
  | bool b => some b
  | _ => none

def items? : Json → Option (List Json)
  | array items => some items
  | _ => none

end Json

end LiftedPlanning
