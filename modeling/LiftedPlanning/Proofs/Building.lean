import LiftedPlanning.Examples
import LiftedPlanning.Proofs.ArgumentLists

/-!
# Built problems

Problems come into being declaration by declaration. A problem is *built* if some sequence of
calls leads to it; a call that is refused leaves the problem as it was, except that a list of
objects may be taken in part.

What all built problems have in common is proved by induction over the calls, stated once as
`Problem.Built.invariant`.
-/

namespace LiftedPlanning

inductive BuilderCall where
  | addType (name : String) (parent : Option String)
  | addObject (name type : String)
  | addObjects (names : List String) (type : String)
  | addFluent (f : Fluent)
  | setInitialValue (i : FluentInstance) (v : Value)
  | setTrue (fluent : String) (args : List String)
  | addAction (a : Action)
  | addGoal (goal : Expr)
  | addMetric (m : QualityMetric)
  | clearMetrics
  | skeleton (name : String)
  | copy

namespace Problem

/-- The problem after a declaration, which stays as it was if the declaration is refused. -/
def orKeep (P : Problem) : Except ModelError Problem → Problem
  | .ok Q => Q
  | .error _ => P

def perform (P : Problem) : BuilderCall → Problem
  | .addType name parent => P.orKeep (P.addType name parent)
  | .addObject name type => P.orKeep (P.addObject name type)
  | .addObjects names type => (P.addObjects names type).1
  | .addFluent f => P.orKeep (P.addFluent f)
  | .setInitialValue i v => P.orKeep (P.setInitialValue i v)
  | .setTrue fluent args => P.orKeep (P.setTrue fluent args)
  | .addAction a => P.orKeep (P.addAction a)
  | .addGoal goal => P.orKeep (P.addGoal goal)
  | .addMetric m => P.addMetric m
  | .clearMetrics => P.clearMetrics
  | .skeleton name => P.skeleton name
  | .copy => P

def build (name : String) (calls : List BuilderCall) : Problem :=
  calls.foldl perform (new name)

/-- Some sequence of calls leads to the problem. -/
def Built (P : Problem) : Prop := ∃ name calls, P = build name calls

theorem Built.performed {P : Problem} (h : P.Built) (c : BuilderCall) : (P.perform c).Built := by
  obtain ⟨name, calls, rfl⟩ := h
  exact ⟨name, calls ++ [c], (List.foldl_concat ..).symm⟩

/-! ## What an accepted declaration adds -/

section Accepted

variable {P Q : Problem}

theorem addType_eq_ok {name : String} {parent : Option String} (h : P.addType name parent = .ok Q) :
    ∃ types, P.types.declare name parent = .ok types ∧ Q = { P with types := types } := by
  obtain ⟨types, htypes, ⟨⟩⟩ := bind_eq_ok.mp h
  exact ⟨types, htypes, rfl⟩

theorem addObject_eq_ok {name type : String} (h : P.addObject name type = .ok Q) :
    P.types.contains type = true ∧ (P.objects.any fun o => o.name = name) = false ∧
      Q = { P with objects := P.objects ++ [⟨name, type⟩] } := by
  unfold addObject at h
  split at h
  · cases h
  · next htype =>
    split at h
    · cases h
    · next hnew =>
      cases h
      exact ⟨by simpa using htype, by simpa using hnew, rfl⟩

theorem addFluent_eq_ok {f : Fluent} (h : P.addFluent f = .ok Q) :
    (P.fluents.any fun g => g.name = f.name) = false ∧ P.checkParameters f.signature = .ok () ∧
      (∀ v, f.default = some v → f.accepts v = true) ∧
      Q = { P with fluents := P.fluents ++ [f] } := by
  unfold addFluent at h
  split at h
  · cases h
  · next hnew =>
    obtain ⟨_, hsignature, h⟩ := bind_eq_ok.mp h
    split at h
    · cases h
    · next hdefault =>
      cases h
      refine ⟨by simpa using hnew, hsignature, fun v hv => ?_, rfl⟩
      simpa using Option.filter_eq_none_iff.mp hdefault v hv

theorem setInitialValue_eq_ok {i : FluentInstance} {v : Value}
    (h : P.setInitialValue i v = .ok Q) :
    ∃ f, P.checkInstance i = .ok () ∧ P.fluent i.fluent = .ok f ∧ f.accepts v = true ∧
      Q = { P with initialValues := P.initialValues.insert i v } := by
  obtain ⟨_, hinstance, h⟩ := bind_eq_ok.mp h
  obtain ⟨f, hf, h⟩ := bind_eq_ok.mp h
  split at h
  · next haccepts =>
    cases h
    exact ⟨f, hinstance, hf, haccepts, rfl⟩
  · cases h

theorem addAction_eq_ok {a : Action} (h : P.addAction a = .ok Q) :
    (P.actions.any fun b => b.name = a.name) = false ∧ P.checkAction a = .ok () ∧
      Q = { P with actions := P.actions ++ [a] } := by
  unfold addAction at h
  split at h
  · cases h
  · next hnew =>
    obtain ⟨_, hcheck, ⟨⟩⟩ := bind_eq_ok.mp h
    exact ⟨by simpa using hnew, hcheck, rfl⟩

theorem addGoal_eq_ok {goal : Expr} (h : P.addGoal goal = .ok Q) :
    P.checkExpr .empty goal = .ok () ∧ Q = { P with goals := P.goals ++ [goal] } := by
  obtain ⟨_, hcheck, ⟨⟩⟩ := bind_eq_ok.mp h
  exact ⟨hcheck, rfl⟩

end Accepted

/-! ## Induction over calls -/

theorem orKeep_induct {I : Problem → Prop} {P : Problem} {r : Except ModelError Problem}
    (hP : I P) (h : ∀ Q, r = .ok Q → I Q) : I (P.orKeep r) := by
  cases r with
  | ok Q => exact h Q rfl
  | error e => exact hP

/-- What a new problem has and every accepted declaration keeps, all built problems have. -/
theorem Built.invariant {I : Problem → Prop}
    (new : ∀ name, I (Problem.new name))
    (addType : ∀ {P Q name parent}, I P → P.addType name parent = .ok Q → I Q)
    (addObject : ∀ {P Q name type}, I P → P.addObject name type = .ok Q → I Q)
    (addFluent : ∀ {P Q f}, I P → P.addFluent f = .ok Q → I Q)
    (setInitialValue : ∀ {P Q i v}, I P → P.setInitialValue i v = .ok Q → I Q)
    (addAction : ∀ {P Q a}, I P → P.addAction a = .ok Q → I Q)
    (addGoal : ∀ {P Q goal}, I P → P.addGoal goal = .ok Q → I Q)
    (addMetric : ∀ {P} m, I P → I (P.addMetric m))
    (clearMetrics : ∀ {P}, I P → I P.clearMetrics)
    (skeleton : ∀ {P} name, I P → I (P.skeleton name))
    {P : Problem} (h : P.Built) : I P := by
  have hobjects : ∀ (names : List String) (type : String) (P : Problem), I P →
      I (P.addObjects names type).1 := by
    intro names type
    induction names with
    | nil => exact fun _ hP => hP
    | cons n names ih =>
      intro P hP
      rw [addObjects]
      cases hn : P.addObject n type with
      | ok Q => exact ih Q (addObject hP hn)
      | error e => exact hP
  have hperform : ∀ (P : Problem) (c : BuilderCall), I P → I (P.perform c) := by
    intro P c hP
    cases c with
    | addType name parent => exact orKeep_induct hP fun Q hQ => addType hP hQ
    | addObject name type => exact orKeep_induct hP fun Q hQ => addObject hP hQ
    | addObjects names type => exact hobjects names type P hP
    | addFluent f => exact orKeep_induct hP fun Q hQ => addFluent hP hQ
    | setInitialValue i v => exact orKeep_induct hP fun Q hQ => setInitialValue hP hQ
    | setTrue fluent args => exact orKeep_induct hP fun Q hQ => setInitialValue hP hQ
    | addAction a => exact orKeep_induct hP fun Q hQ => addAction hP hQ
    | addGoal goal => exact orKeep_induct hP fun Q hQ => addGoal hP hQ
    | addMetric m => exact addMetric m hP
    | clearMetrics => exact clearMetrics hP
    | skeleton name => exact skeleton name hP
    | copy => exact hP
  obtain ⟨name, calls, rfl⟩ := h
  have hcalls : ∀ P, I P → I (calls.foldl perform P) := by
    induction calls with
    | nil => exact fun _ hP => hP
    | cons c calls ih => exact fun P hP => ih _ (hperform P c hP)
  exact hcalls _ (new name)

/-! ## Distinct names -/

/-- Objects have distinct names, and so have actions. -/
structure NamesDistinct (P : Problem) : Prop where
  objects : P.toVocabulary.ObjectsDistinct
  actions : (P.actions.map Action.name).Nodup

theorem nodup_concat {α : Type} {key : α → String} {l : List α} {a : α}
    (h : (l.map key).Nodup) (ha : (l.any fun x => key x = key a) = false) :
    ((l ++ [a]).map key).Nodup := by
  rw [List.map_append, List.map_singleton]
  refine List.nodup_append.mpr ⟨h, List.nodup_singleton _, fun x hx y hy => ?_⟩
  obtain ⟨b, hb, rfl⟩ := List.mem_map.mp hx
  obtain rfl := List.mem_singleton.mp hy
  simpa using List.any_eq_false.mp ha b hb

theorem Built.namesDistinct {P : Problem} (h : P.Built) : P.NamesDistinct := by
  refine h.invariant (I := NamesDistinct) ?new ?addType ?addObject ?addFluent ?setInitialValue
    ?addAction ?addGoal ?addMetric ?clearMetrics ?skeleton
  case new => exact fun _ => ⟨List.nodup_nil, List.nodup_nil⟩
  case addType =>
    intro P Q name parent hP hQ
    obtain ⟨_, _, rfl⟩ := addType_eq_ok hQ
    exact ⟨hP.objects, hP.actions⟩
  case addObject =>
    intro P Q name type hP hQ
    obtain ⟨_, hnew, rfl⟩ := addObject_eq_ok hQ
    exact ⟨nodup_concat hP.objects hnew, hP.actions⟩
  case addFluent =>
    intro P Q f hP hQ
    obtain ⟨_, _, _, rfl⟩ := addFluent_eq_ok hQ
    exact ⟨hP.objects, hP.actions⟩
  case setInitialValue =>
    intro P Q i v hP hQ
    obtain ⟨_, _, _, _, rfl⟩ := setInitialValue_eq_ok hQ
    exact ⟨hP.objects, hP.actions⟩
  case addAction =>
    intro P Q a hP hQ
    obtain ⟨hnew, _, rfl⟩ := addAction_eq_ok hQ
    exact ⟨hP.objects, nodup_concat hP.actions hnew⟩
  case addGoal =>
    intro P Q goal hP hQ
    obtain ⟨_, rfl⟩ := addGoal_eq_ok hQ
    exact ⟨hP.objects, hP.actions⟩
  case addMetric => exact fun _ hP => ⟨hP.objects, hP.actions⟩
  case clearMetrics => exact fun hP => ⟨hP.objects, hP.actions⟩
  case skeleton => exact fun _ hP => ⟨hP.objects, List.nodup_nil⟩

end Problem

namespace Examples

/-- Three places in a row. Driving costs the toll of the place it leads to, and where the road goes
both ways this is written down. The goals are to be at `c`, and that some road leads out of `a`,
which no action changes. -/
def roads : Problem :=
  let place (x : String) : Parameter := ⟨x, "place"⟩
  let located (x : Expr) : Expr := .fluent "at" [x]
  let road (x y : Expr) : Expr := .fluent "road" [x, y]
  .build "roads" [
    .addType "place" none,
    .addObjects ["a", "b", "c"] "place",
    .addFluent (.predicate "at" [place "x"]),
    .addFluent (.predicate "road" [place "x", place "y"]),
    .addFluent (.numeric "toll" [place "x"] (some (.number 1))),
    .addFluent (.predicate "returnable" []),
    .addAction ⟨"drive", [place "x", place "y"],
      [located (v "x"), road (v "x") (v "y")],
      [makes "at" [v "x"] false, makes "at" [v "y"] true,
        (makes "returnable" [] true).when (road (v "y") (v "x"))]⟩,
    .setTrue "at" ["a"],
    .setTrue "road" ["a", "b"],
    .setTrue "road" ["b", "c"],
    .setTrue "road" ["c", "b"],
    .setInitialValue ⟨"toll", ["c"]⟩ (.number 3),
    .addGoal (located (o "c")),
    .addGoal (.quantified .existential [place "x"] (road (o "a") (v "x"))),
    .addMetric (.actionCosts (.ofList [("drive", .fluent "toll" [v "y"])]) none)]

theorem roads_built : roads.Built := ⟨_, _, rfl⟩

/-- A crate, a cart and a truck; the truck is a lorry, lorries are vehicles, and vehicles are things
and can be loaded themselves. A thing that is on no vehicle can be loaded; the quantifier that says
so takes the name of a parameter once more. Loading costs the weight of the thing, and the last
metric asks whether no thing is too heavy. -/
def depot : Problem :=
  let thing (x : String) : Parameter := ⟨x, "thing"⟩
  let vehicle (x : String) : Parameter := ⟨x, "vehicle"⟩
  let on (x y : Expr) : Expr := .fluent "on" [x, y]
  .build "depot" [
    .addType "thing" none,
    .addType "vehicle" (some "thing"),
    .addType "lorry" (some "vehicle"),
    .addObject "crate" "thing",
    .addObject "cart" "vehicle",
    .addObject "truck" "lorry",
    .addFluent (.predicate "on" [thing "x", vehicle "y"]),
    .addFluent (.numeric "weight" [thing "x"] none),
    .addAction ⟨"load", [thing "x", vehicle "y"],
      [.not (.quantified .existential [vehicle "y"] (on (v "x") (v "y")))],
      [makes "on" [v "x", v "y"] true]⟩,
    .setInitialValue ⟨"weight", ["crate"]⟩ (.number 3),
    .setInitialValue ⟨"weight", ["cart"]⟩ (.number 20),
    .addGoal (.quantified .existential [vehicle "y"] (on (o "crate") (v "y"))),
    .addMetric (.actionCosts (.ofList [("load", .fluent "weight" [v "x"])]) none),
    .addMetric (.maximizeFinal (.quantified .universal [thing "x"]
      (.binary .le (.fluent "weight" [v "x"]) (.number 20))))]

theorem depot_built : depot.Built := ⟨_, _, rfl⟩

def level (x : Expr) : Expr := .fluent "level" [x]

/-- Pours a jug that is not empty into another one: the level of the first becomes 0, and what it
was is added to the level of the second, which gets wet if there was something in it before. -/
def pour : Action :=
  ⟨"pour", [⟨"x", "jug"⟩, ⟨"y", "jug"⟩], [.binary .lt (.number 0) (level (v "x"))],
    [.always "level" [v "x"] .assign (.number 0),
      .always "level" [v "y"] .increase (level (v "x")),
      (makes "wet" [v "y"] true).when (.binary .lt (.number 0) (level (v "y")))]⟩

def spill : Action :=
  ⟨"spill", [⟨"x", "jug"⟩], [],
    [.always "spilt" [] .increase (level (v "x")),
      .always "level" [v "x"] .assign (.number 0)]⟩

/-- Two jugs, `j` with 5 units in it and `k` empty. Pouring costs the level of the first jug. The
sum of what is spilt has no value, since nobody has started it. -/
def jugs : Problem :=
  .build "jugs" [
    .addType "jug" none,
    .addObjects ["j", "k"] "jug",
    .addFluent (.numeric "level" [⟨"x", "jug"⟩] (some (.number 0))),
    .addFluent (.predicate "wet" [⟨"x", "jug"⟩]),
    .addFluent (.numeric "spilt" [] none),
    .addAction pour,
    .addAction spill,
    .setInitialValue ⟨"level", ["j"]⟩ (.number 5),
    .addGoal (.binary .equals (level (o "k")) (.number 5)),
    .addMetric .planLength,
    .addMetric (.actionCosts (.ofList [("pour", level (v "x"))]) none),
    .addMetric (.minimizeFinal (level (o "k")))]

theorem jugs_built : jugs.Built := ⟨_, _, rfl⟩

def pouring (x y : String) : ActionInstance := ⟨"pour", [x, y]⟩

def spilling (x : String) : ActionInstance := ⟨"spill", [x]⟩

end Examples

end LiftedPlanning
