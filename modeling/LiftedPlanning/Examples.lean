import LiftedPlanning.Problem.Basic

/-!
# Example problems

Small planning problems, built the way any problem is.
-/

namespace LiftedPlanning.Examples

/-- A fluent or an expression argument that is a variable. -/
def v (name : String) : Expr := .var name

/-- An argument that is an object. -/
def o (name : String) : Expr := .object name

def makes (fluent : String) (args : List Expr) (b : Bool) : Effect :=
  .always fluent args .assign (.bool b)

/-- One predicate `x` and one action `a` that makes it true. The goal is `x`. -/
def basic : Except ModelError Problem := do
  let P ← (Problem.new "basic").addFluent (.predicate "x" [])
  let P ← P.addAction ⟨"a", [], [.not (.fluent "x" [])], [makes "x" [] true]⟩
  P.addGoal (.fluent "x" [])

def basicWithCosts : Except ModelError Problem :=
  return (← basic).addMetric (.actionCosts (.ofList [("a", .number 1)]) none)

def basicWithPlanLength : Except ModelError Problem :=
  return (← basic).addMetric .planLength

/-- The predicate `z` becomes true only if `a_y` comes after `a_x`. -/
def conditionalEffects : Except ModelError Problem := do
  let P ← (Problem.new "conditional_effects").addFluent (.predicate "x" [])
  let P ← P.addFluent (.predicate "y" [])
  let P ← P.addFluent (.predicate "z" [])
  let x : Expr := .fluent "x" []
  let y : Expr := .fluent "y" []
  let P ← P.addAction ⟨"a_x", [], [.not x], [makes "x" [] true]⟩
  let P ← P.addAction ⟨"a_y", [], [.not y], [makes "y" [] true, (makes "z" [] true).when x]⟩
  P.addGoal (.fluent "z" [])

def declareObjects (P : Problem) (type : String) (names : List String) :
    Except ModelError Problem :=
  names.foldlM (fun P n => P.addObject n type) P

def declareTrue (P : Problem) (fluent : String) (argss : List (List String)) :
    Except ModelError Problem :=
  argss.foldlM (fun P args => P.setTrue fluent args) P

/-- Two blocks and a table. A block is a thing and the table is just a thing. A block can be moved
only if nothing is on it, said by a quantifier over all things. At first `b` is on `a` and `a` on
the table; the goal is `a` on `b`. -/
def blocksForall : Except ModelError Problem := do
  let P ← (Problem.new "blocks_forall").addType "thing" none
  let P ← P.addType "block" (some "thing")
  let P ← declareObjects P "block" ["a", "b"]
  let P ← P.addObject "table" "thing"
  let P ← P.addFluent (.predicate "on" [⟨"x", "thing"⟩, ⟨"y", "thing"⟩])
  let on (a b : Expr) : Expr := .fluent "on" [a, b]
  let clear (target : Expr) : Expr :=
    .quantified .universal [⟨"z", "thing"⟩] (.not (on (v "z") target))
  let equal (a b : Expr) : Expr := .binary .equals a b
  let P ← P.addAction ⟨"move", [⟨"x", "block"⟩, ⟨"from", "thing"⟩, ⟨"to", "thing"⟩],
    [on (v "x") (v "from"), clear (v "x"), .or [equal (v "to") (o "table"), clear (v "to")],
      .not (equal (v "x") (v "to")), .not (equal (v "from") (v "to"))],
    [makes "on" [v "x", v "from"] false, makes "on" [v "x", v "to"] true]⟩
  let P ← declareTrue P "on" [["a", "table"], ["b", "a"]]
  P.addGoal (on (o "a") (o "b"))

/-- One truck, two packages and three locations in a line. The goals are `p1` at `l3` and `p2` in
some truck. Roads do not change, and `unload` asks, without need, that the truck be somewhere. -/
def logistics : Except ModelError Problem := do
  let P ← (Problem.new "logistics").addType "locatable" none
  let P ← P.addType "location" none
  let P ← P.addType "truck" (some "locatable")
  let P ← P.addType "package" (some "locatable")
  let P ← P.addObject "t1" "truck"
  let P ← declareObjects P "package" ["p1", "p2"]
  let P ← declareObjects P "location" ["l1", "l2", "l3"]
  let P ← P.addFluent (.predicate "at" [⟨"x", "locatable"⟩, ⟨"l", "location"⟩])
  let P ← P.addFluent (.predicate "in" [⟨"p", "package"⟩, ⟨"t", "truck"⟩])
  let P ← P.addFluent (.predicate "road" [⟨"from", "location"⟩, ⟨"to", "location"⟩])
  let located (a b : Expr) : Expr := .fluent "at" [a, b]
  let inside (a b : Expr) : Expr := .fluent "in" [a, b]
  let cargo : List Parameter := [⟨"p", "package"⟩, ⟨"t", "truck"⟩, ⟨"l", "location"⟩]
  let P ← P.addAction ⟨"load", cargo,
    [located (v "t") (v "l"), located (v "p") (v "l")],
    [makes "at" [v "p", v "l"] false, makes "in" [v "p", v "t"] true]⟩
  let P ← P.addAction ⟨"unload", cargo,
    [located (v "t") (v "l"), inside (v "p") (v "t"),
      .quantified .existential [⟨"s", "location"⟩] (located (v "t") (v "s"))],
    [makes "in" [v "p", v "t"] false, makes "at" [v "p", v "l"] true]⟩
  let P ← P.addAction ⟨"drive", [⟨"t", "truck"⟩, ⟨"from", "location"⟩, ⟨"to", "location"⟩],
    [located (v "t") (v "from"), .fluent "road" [v "from", v "to"]],
    [makes "at" [v "t", v "from"] false, makes "at" [v "t", v "to"] true]⟩
  let P ← declareTrue P "at" [["t1", "l1"], ["p1", "l1"], ["p2", "l2"]]
  let P ← declareTrue P "road" [["l1", "l2"], ["l2", "l1"], ["l2", "l3"], ["l3", "l2"]]
  let P ← P.addGoal (located (o "p1") (o "l3"))
  P.addGoal (.quantified .existential [⟨"t", "truck"⟩] (inside (o "p2") (v "t")))

/-- Workers on two adjacent farms. A fast move sends four workers away of whom two arrive, a slow
one moves one; every move adds one to `cost`. The goal is at least five workers on `f1`. -/
def farmland : Except ModelError Problem := do
  let P ← (Problem.new "farmland").addType "farm" none
  let P ← declareObjects P "farm" ["f0", "f1"]
  let P ← P.addFluent (.numeric "x" [⟨"f", "farm"⟩] none)
  let P ← P.addFluent (.predicate "adj" [⟨"a", "farm"⟩, ⟨"b", "farm"⟩])
  let P ← P.addFluent (.numeric "cost" [] (some (.number 0)))
  let x (farm : Expr) : Expr := .fluent "x" [farm]
  let params : List Parameter := [⟨"a", "farm"⟩, ⟨"b", "farm"⟩]
  let adjacent : Expr := .fluent "adj" [v "a", v "b"]
  let more : Effect := .always "cost" [] .increase (.number 1)
  let P ← P.addAction ⟨"move_fast", params, [adjacent, .ge (x (v "a")) (.number 4)],
    [.always "x" [v "a"] .decrease (.number 4), .always "x" [v "b"] .increase (.number 2), more]⟩
  let P ← P.addAction ⟨"move_slow", params, [adjacent, .ge (x (v "a")) (.number 1)],
    [.always "x" [v "a"] .decrease (.number 1), .always "x" [v "b"] .increase (.number 1), more]⟩
  let P ← P.setInitialValue ⟨"x", ["f0"]⟩ (.number 8)
  let P ← P.setInitialValue ⟨"x", ["f1"]⟩ (.number 0)
  let P ← declareTrue P "adj" [["f0", "f1"], ["f1", "f0"]]
  P.addGoal (.ge (x (o "f1")) (.number 5))

/-- The farms with two metrics: the final value of `cost`, and action costs by which a fast move
costs as many workers as there are where it starts. -/
def farmlandWithMetrics : Except ModelError Problem := do
  let P := (← farmland).addMetric (.minimizeFinal (.fluent "cost" []))
  return P.addMetric (.actionCosts (.ofList [("move_fast", .fluent "x" [v "a"])])
    (some (.number 1)))

def ofName? : String → Option (Except ModelError Problem)
  | "basic" => some basic
  | "basic_with_costs" => some basicWithCosts
  | "basic_with_plan_length" => some basicWithPlanLength
  | "conditional_effects" => some conditionalEffects
  | "blocks_forall" => some blocksForall
  | "logistics" => some logistics
  | "farmland" => some farmland
  | "farmland_with_metrics" => some farmlandWithMetrics
  | _ => none

end LiftedPlanning.Examples
