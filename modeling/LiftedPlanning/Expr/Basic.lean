import LiftedPlanning.Object
import LiftedPlanning.Value

/-!
# Expressions

Conditions and numeric terms over fluents. Connectives that take any number of operands come in
two families: junctions (`and`, `or`), which read their operands from the left until one decides,
and series (`+`, `*`), which combine all of them. A universal quantifier is a large conjunction
and an existential one a large disjunction; `Quantifier.junction` says so once for evaluation and
for expansion.

Lists of operands make the type nested, so recursive functions over it come in pairs, one for
expressions and one for lists of them. `Expr.induct` hides this from proofs.
-/

namespace LiftedPlanning

inductive Junction where
  | and
  | or
deriving DecidableEq

/-- The truth value of a junction of no conditions, which is also the one that decides nothing. -/
def Junction.neutral : Junction → Bool
  | .and => true
  | .or => false

inductive Series where
  | plus
  | times
deriving DecidableEq

def Series.neutral : Series → Rat
  | .plus => 0
  | .times => 1

def Series.combine : Series → Rat → Rat → Rat
  | .plus, a, b => a + b
  | .times, a, b => a * b

inductive BinaryOp where
  | implies
  | iff
  | equals
  | le
  | lt
  | minus
  | div
deriving DecidableEq

inductive Quantifier where
  | universal
  | existential
deriving DecidableEq

def Quantifier.junction : Quantifier → Junction
  | .universal => .and
  | .existential => .or

inductive Expr where
  | const (v : Value)
  | var (name : String)
  | fluent (name : String) (args : List Expr)
  | not (e : Expr)
  | junction (op : Junction) (es : List Expr)
  | series (op : Series) (es : List Expr)
  | binary (op : BinaryOp) (a b : Expr)
  | quantified (q : Quantifier) (vars : List Parameter) (body : Expr)

namespace Expr

instance : Inhabited Expr := ⟨const default⟩

/-! ## Abbreviations -/

abbrev bool (b : Bool) : Expr := const (.bool b)

abbrev number (q : Rat) : Expr := const (.number q)

abbrev object (o : String) : Expr := const (.object o)

abbrev and (es : List Expr) : Expr := junction .and es

abbrev or (es : List Expr) : Expr := junction .or es

/-- `a ≥ b`, which is `b ≤ a`. -/
abbrev ge (a b : Expr) : Expr := binary .le b a

abbrev gt (a b : Expr) : Expr := binary .lt b a

/-! ## Induction -/

/-- Induction over expressions, with the hypothesis for every operand of a list. -/
@[induction_eliminator]
theorem induct {motive : Expr → Prop}
    (const : ∀ v, motive (.const v))
    (var : ∀ x, motive (.var x))
    (fluent : ∀ f args, (∀ a ∈ args, motive a) → motive (.fluent f args))
    (not : ∀ e, motive e → motive (.not e))
    (junction : ∀ op es, (∀ e ∈ es, motive e) → motive (.junction op es))
    (series : ∀ op es, (∀ e ∈ es, motive e) → motive (.series op es))
    (binary : ∀ op a b, motive a → motive b → motive (.binary op a b))
    (quantified : ∀ q vars body, motive body → motive (.quantified q vars body))
    (e : Expr) : motive e :=
  @Expr.rec motive (fun es => ∀ e ∈ es, motive e)
    const var fluent not junction series binary quantified
    (fun _ h => nomatch h)
    (fun _ _ hhead htail _ h => by
      rcases List.mem_cons.mp h with rfl | h
      · exact hhead
      · exact htail _ h)
    e

/-! ## Equality -/

mutual

def same : Expr → Expr → Bool
  | const v, const w => v = w
  | var x, var y => x = y
  | fluent f as, fluent g bs => f = g && sameAll as bs
  | not a, not b => same a b
  | junction op as, junction op' bs => op = op' && sameAll as bs
  | series op as, series op' bs => op = op' && sameAll as bs
  | binary op a b, binary op' a' b' => op = op' && same a a' && same b b'
  | quantified q vs a, quantified q' ws b => q = q' && vs = ws && same a b
  | _, _ => false

def sameAll : List Expr → List Expr → Bool
  | [], [] => true
  | a :: as, b :: bs => same a b && sameAll as bs
  | _, _ => false

end

theorem sameAll_iff {as bs : List Expr} (h : ∀ a ∈ as, ∀ b, same a b = true ↔ a = b) :
    sameAll as bs = true ↔ as = bs := by
  induction as generalizing bs with
  | nil => cases bs <;> simp [sameAll]
  | cons a as ih =>
    cases bs with
    | nil => simp [sameAll]
    | cons b bs =>
      simp [sameAll, h a (List.mem_cons_self ..), ih fun x hx => h x (List.mem_cons_of_mem _ hx)]

theorem same_iff (a b : Expr) : same a b = true ↔ a = b := by
  induction a generalizing b with
  | const v => cases b <;> simp [same]
  | var x => cases b <;> simp [same]
  | fluent f args ih => cases b <;> simp [same, sameAll_iff ih]
  | not e ih => cases b <;> simp [same, ih]
  | junction op es ih => cases b <;> simp [same, sameAll_iff ih]
  | series op es ih => cases b <;> simp [same, sameAll_iff ih]
  | binary op a b iha ihb => cases b <;> simp [same, iha, ihb, and_assoc]
  | quantified q vars body ih => cases b <;> simp [same, ih, and_assoc]

instance : DecidableEq Expr := fun a b => decidable_of_iff _ (same_iff a b)

/-! ## Parts -/

def children : Expr → List Expr
  | const _ => []
  | var _ => []
  | fluent _ args => args
  | not e => [e]
  | junction _ es => es
  | series _ es => es
  | binary _ a b => [a, b]
  | quantified _ _ body => [body]

mutual

/-- The expression itself and everything below it, outermost first. -/
def subexpressions : Expr → List Expr
  | const v => [const v]
  | var x => [var x]
  | fluent f args => fluent f args :: subexpressionsOfAll args
  | not e => not e :: subexpressions e
  | junction op es => junction op es :: subexpressionsOfAll es
  | series op es => series op es :: subexpressionsOfAll es
  | binary op a b => binary op a b :: (subexpressions a ++ subexpressions b)
  | quantified q vars body => quantified q vars body :: subexpressions body

def subexpressionsOfAll : List Expr → List Expr
  | [] => []
  | e :: es => subexpressions e ++ subexpressionsOfAll es

end

@[simp] theorem subexpressionsOfAll_eq (es : List Expr) :
    subexpressionsOfAll es = es.flatMap subexpressions := by
  induction es with
  | nil => rfl
  | cons e es ih => simp [subexpressionsOfAll, ih]

/-- Everything in an expression is the expression itself, or is in an operand. -/
theorem subexpressions_eq (e : Expr) : e.subexpressions = e :: e.children.flatMap subexpressions := by
  cases e with
  | const v | var x => rfl
  | fluent f es | junction op es | series op es =>
    exact congrArg (List.cons _) (subexpressionsOfAll_eq es)
  | not e | quantified q vars e => exact congrArg (List.cons _) (List.append_nil _).symm
  | binary op a b =>
    show _ :: (a.subexpressions ++ b.subexpressions) =
      _ :: (a.subexpressions ++ (b.subexpressions ++ []))
    rw [List.append_nil]

inductive Operator where
  | const
  | var
  | fluent
  | not
  | junction (op : Junction)
  | series (op : Series)
  | binary (op : BinaryOp)
  | quantified (q : Quantifier)

def operator : Expr → Operator
  | const _ => .const
  | var _ => .var
  | fluent _ _ => .fluent
  | not _ => .not
  | junction op _ => .junction op
  | series op _ => .series op
  | binary op _ _ => .binary op
  | quantified q _ _ => .quantified q

def isQuantifier : Expr → Bool
  | quantified .. => true
  | _ => false

def hasQuantifier (e : Expr) : Bool := e.subexpressions.any isQuantifier

/-! ## JSON -/

def junctionTag : Junction → String
  | .and => "And"
  | .or => "Or"

def seriesTag : Series → String
  | .plus => "Plus"
  | .times => "Times"

def binaryTag : BinaryOp → String
  | .implies => "Implies"
  | .iff => "Iff"
  | .equals => "Equals"
  | .le => "Le"
  | .lt => "Lt"
  | .minus => "Minus"
  | .div => "Div"

def quantifierTag : Quantifier → String
  | .universal => "Forall"
  | .existential => "Exists"

mutual

/-- JSON form, tagged by the outermost operator. -/
def json : Expr → Json
  | const v => v.json
  | var x => .ofField "Var" (.ofString x)
  | fluent f args => .ofField "Fluent" (.array [.ofString f, .array (jsonOfAll args)])
  | not e => .ofField "Not" (json e)
  | junction op es => .ofField (junctionTag op) (.array (jsonOfAll es))
  | series op es => .ofField (seriesTag op) (.array (jsonOfAll es))
  | binary op a b => .ofField (binaryTag op) (.array [json a, json b])
  | quantified q vars body =>
    .ofField (quantifierTag q) (.array [.array (vars.map Parameter.json), json body])

def jsonOfAll : List Expr → List Json
  | [] => []
  | e :: es => json e :: jsonOfAll es

end

@[simp] theorem jsonOfAll_eq (es : List Expr) : jsonOfAll es = es.map json := by
  induction es with
  | nil => rfl
  | cons e es ih => simp [jsonOfAll, ih]

/-! ## Text -/

def junctionName : Junction → String
  | .and => "and"
  | .or => "or"

def seriesName : Series → String
  | .plus => "+"
  | .times => "*"

def binaryName : BinaryOp → String
  | .implies => "imply"
  | .iff => "iff"
  | .equals => "="
  | .le => "<="
  | .lt => "<"
  | .minus => "-"
  | .div => "/"

def quantifierName : Quantifier → String
  | .universal => "forall"
  | .existential => "exists"

/-- A head and its operands in parentheses, set apart by blanks. -/
def list (head : String) (operands : List String) : String :=
  "(" ++ " ".intercalate (head :: operands) ++ ")"

mutual

/-- How an expression is shown: operators stand in front of their operands. -/
def text : Expr → String
  | const v => v.text
  | var x => "?" ++ x
  | fluent f args => list f (textOfAll args)
  | not e => list "not" [text e]
  | junction op es => list (junctionName op) (textOfAll es)
  | series op es => list (seriesName op) (textOfAll es)
  | binary op a b => list (binaryName op) [text a, text b]
  | quantified q vars body =>
    "(" ++ quantifierName q ++ " (" ++ " ".intercalate (vars.map Parameter.text) ++ ") "
      ++ text body ++ ")"

def textOfAll : List Expr → List String
  | [] => []
  | e :: es => text e :: textOfAll es

end

end Expr

end LiftedPlanning
