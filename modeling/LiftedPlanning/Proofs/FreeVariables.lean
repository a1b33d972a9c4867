import LiftedPlanning.Proofs.Expansion
import LiftedPlanning.SortedMap
import Mathlib.Data.Finset.Lattice.Lemmas
import Mathlib.Data.List.Nodup

/-!
# Free variables

A quantifier keeps the variables that it binds to itself. Two plain programs see to that in their
own ways. One collects the variables of an expression in a single walk: it keeps the bound ones on a
stack, and cuts the stack back when it leaves a quantifier (`Expr.collect`). The other puts in the
objects that a table lists, and takes the variables of a quantifier out of the table on the way down
(`Expr.fill`).

The walk meets the free occurrences and no others (`Expr.collect_eq_foldl`), and to fill in from a
table is to substitute what it lists (`Expr.fill_eq`). So the two have the same idea of scope: a
substitution leaves the free variables that it does not bind, and one substitution after another is
a single one (`Expr.substitute_scoped`).
-/

namespace LiftedPlanning

/-- Erasing duplicates leaves none. -/
theorem nodup_eraseDups {α : Type} [BEq α] [LawfulBEq α] (xs : List α) :
    xs.eraseDups.Nodup := by
  induction xs using List.reverseRecOn with
  | nil => simp
  | append_singleton xs x ih =>
    rw [List.eraseDups_append]
    by_cases hx : x ∈ xs
    · simpa [List.removeAll, hx] using ih
    · have hlast : ∀ y ∈ xs, ¬ y = x := by
        rintro y hy rfl
        exact hx hy
      simpa [List.removeAll, hx, List.nodup_append, List.eraseDups_cons, ih] using hlast

/-! ## The walk -/

/-- How far a walk has come: the variables of the quantifiers around, the innermost last, and the
free variables met so far. -/
structure VariableWalk where
  stack : List String
  met : Finset String

namespace VariableWalk

def start : VariableWalk := ⟨[], ∅⟩

/-- Meets a variable, which is free unless it is on the stack. -/
def meet (w : VariableWalk) (x : String) : VariableWalk :=
  if x ∈ w.stack then w else { w with met := insert x w.met }

def enter (w : VariableWalk) (vars : List Parameter) : VariableWalk :=
  { w with stack := w.stack ++ vars.map Parameter.name }

def leave (w : VariableWalk) (height : Nat) : VariableWalk :=
  { w with stack := w.stack.take height }

theorem leave_enter (w : VariableWalk) (vars : List Parameter) :
    (w.enter vars).leave w.stack.length = w := by
  simp [enter, leave]

/-- Below a quantifier, a variable is met just if the quantifier does not bind it. -/
theorem meet_enter (w : VariableWalk) (vars : List Parameter) (x : String) :
    (w.enter vars).meet x =
      if Parameter.binds vars x then w.enter vars else (w.meet x).enter vars := by
  have hmem : x ∈ vars.map Parameter.name ↔ Parameter.binds vars x = true := by
    simp [Parameter.binds]
  by_cases hbinds : Parameter.binds vars x = true
  · have hstack : x ∈ (w.enter vars).stack := List.mem_append_right _ (hmem.mpr hbinds)
    rw [meet, if_pos hstack, if_pos hbinds]
  · by_cases hx : x ∈ w.stack
    · simp [meet, enter, hbinds, hx]
    · simp [meet, enter, hbinds, hx, hmem]

theorem foldl_meet_enter (w : VariableWalk) (vars : List Parameter) (xs : List String) :
    xs.foldl meet (w.enter vars) =
      ((xs.filter fun x => !Parameter.binds vars x).foldl meet w).enter vars := by
  induction xs generalizing w with
  | nil => rfl
  | cons x xs ih =>
    rw [List.foldl_cons, meet_enter]
    by_cases hbinds : Parameter.binds vars x = true
    · rw [if_pos hbinds, ih]
      simp [hbinds]
    · rw [if_neg hbinds, ih]
      simp [hbinds]

/-- Meeting variables leaves the stack as it is. -/
theorem foldl_meet (w : VariableWalk) (xs : List String) :
    xs.foldl meet w = ⟨w.stack, w.met ∪ (xs.filter (· ∉ w.stack)).toFinset⟩ := by
  induction xs generalizing w with
  | nil =>
    obtain ⟨stack, met⟩ := w
    simp
  | cons x xs ih =>
    rw [List.foldl_cons, ih]
    by_cases hx : x ∈ w.stack
    · simp [meet, hx]
    · simp [meet, hx, Finset.insert_union, Finset.union_insert]

end VariableWalk

namespace Expr

mutual

/-- Walks through an expression from the left and meets its variables. -/
def collect (w : VariableWalk) : Expr → VariableWalk
  | const _ => w
  | var x => w.meet x
  | fluent _ args => collectAll w args
  | not e => collect w e
  | junction _ es => collectAll w es
  | series _ es => collectAll w es
  | binary _ a b => collect (collect w a) b
  | quantified _ vars body => (collect (w.enter vars) body).leave w.stack.length

def collectAll (w : VariableWalk) : List Expr → VariableWalk
  | [] => w
  | e :: es => collectAll (collect w e) es

end

theorem collectAll_eq (w : VariableWalk) (es : List Expr) :
    collectAll w es = es.foldl collect w := by
  induction es generalizing w with
  | nil => rfl
  | cons e es ih => rw [collectAll, ih, List.foldl_cons]

/-- The walk meets the free occurrences, in order. -/
theorem collect_eq_foldl (w : VariableWalk) (e : Expr) :
    e.collect w = e.freeOccurrences.foldl VariableWalk.meet w := by
  have hall {es : List Expr}
      (ih : ∀ e ∈ es, ∀ w, e.collect w = e.freeOccurrences.foldl VariableWalk.meet w)
      (w : VariableWalk) :
      collectAll w es = (freeOccurrencesOfAll es).foldl VariableWalk.meet w := by
    rw [collectAll_eq, freeOccurrencesOfAll_eq, List.foldl_flatMap]
    exact List.foldl_ext _ _ _ fun w e he => ih e he w
  induction e generalizing w with
  | const v | var x => rfl
  | fluent f es ih | junction f es ih | series f es ih => exact hall ih w
  | not e ih => exact ih w
  | binary op a b iha ihb => rw [collect, iha, ihb, freeOccurrences, List.foldl_append]
  | quantified q vars body ih =>
    rw [collect, ih, VariableWalk.foldl_meet_enter, freeOccurrences]
    -- what is met below has the stack of `w`, so its height is the one to cut back to
    have hstack : w.stack = (List.foldl VariableWalk.meet w
        (body.freeOccurrences.filter fun x => !Parameter.binds vars x)).stack := by
      rw [VariableWalk.foldl_meet]
    rw [hstack, VariableWalk.leave_enter]

/-! ## The sorted list -/

theorem nodup_freeVariables (e : Expr) : e.freeVariables.Nodup :=
  (List.mergeSort_perm _ _).nodup_iff.mpr (nodup_eraseDups _)

theorem pairwise_freeVariables (e : Expr) : e.freeVariables.Pairwise (· ≤ ·) := by
  have htrans (x y z : String) (hxy : decide (x ≤ y) = true) (hyz : decide (y ≤ z) = true) :
      decide (x ≤ z) = true :=
    decide_eq_true (String.le_trans (of_decide_eq_true hxy) (of_decide_eq_true hyz))
  have htotal (x y : String) : (decide (x ≤ y) || decide (y ≤ x)) = true := by
    simpa using String.le_total x y
  have hsorted := List.pairwise_mergeSort htrans htotal e.freeOccurrences.eraseDups
  exact hsorted.imp of_decide_eq_true

/-- The free variables have just one sorted list. -/
theorem freeVariables_eq_of_mem_iff {e : Expr} {xs : List String} (hnodup : xs.Nodup)
    (hsorted : xs.Pairwise (· ≤ ·)) (h : ∀ x, x ∈ e.freeOccurrences ↔ x ∈ xs) :
    e.freeVariables = xs := by
  have hperm : e.freeVariables.Perm xs := by
    rw [List.perm_ext_iff_of_nodup e.nodup_freeVariables hnodup]
    intro x
    rw [mem_freeVariables, h]
  exact hperm.eq_of_pairwise (fun x y _ _ => String.le_antisymm) e.pairwise_freeVariables hsorted

/-- A walk from the start meets the free variables, and the stack is empty again at its end. -/
theorem collect_start (e : Expr) : e.collect .start = ⟨[], e.freeVariables.toFinset⟩ := by
  rw [collect_eq_foldl, VariableWalk.foldl_meet]
  congr 1
  ext x
  simp [VariableWalk.start]

end Expr

/-! ## Hiding variables -/

namespace Binding

theorem hide_empty (vars : List Parameter) : empty.hide vars = empty := by
  funext x
  simp [hide, empty]

theorem hide_overlay (b c : Binding) (vars : List Parameter) :
    (b.overlay c).hide vars = (b.hide vars).overlay (c.hide vars) := by
  funext x
  by_cases hx : Parameter.binds vars x = true
  · simp [hide, overlay, hx]
  · simp [hide, overlay, hx]

/-- Takes variables out of a table. One that lists none of them stays as it is. -/
def removeAll (m : SortedMap String String) (vars : List Parameter) : SortedMap String String :=
  if vars.any fun p => (m.get? p.name).isSome then vars.foldl (fun m p => m.erase p.name) m else m

theorem get?_foldl_erase (m : SortedMap String String) (vars : List Parameter) :
    (vars.foldl (fun m p => m.erase p.name) m).get? = hide m.get? vars := by
  funext x
  induction vars generalizing m with
  | nil => rfl
  | cons p vars ih =>
    rw [List.foldl_cons, ih]
    have hcons : Parameter.binds (p :: vars) x = (decide (p.name = x) || Parameter.binds vars x) :=
      rfl
    by_cases hp : p.name = x
    · simp [hide, hcons, hp]
    · simp [hide, hcons, hp, SortedMap.get?_erase_of_ne m (Ne.symm hp)]

theorem get?_removeAll (m : SortedMap String String) (vars : List Parameter) :
    (removeAll m vars).get? = hide m.get? vars := by
  rw [removeAll]
  split
  · exact get?_foldl_erase m vars
  · next hlisted =>
    have hnone : ∀ p ∈ vars, m.get? p.name = none := by simpa using hlisted
    funext x
    rw [hide]
    split
    · next hx =>
      obtain ⟨p, hp, rfl⟩ : ∃ p ∈ vars, p.name = x := by simpa [Parameter.binds] using hx
      exact hnone p hp
    · rfl

end Binding

/-! ## Substitution -/

namespace Expr

theorem substitute_empty (e : Expr) : e.substitute .empty = e := by
  have hall {es : List Expr} (ih : ∀ e ∈ es, e.substitute .empty = e) :
      substituteAll .empty es = es := by
    rw [substituteAll_eq, List.map_congr_left ih, List.map_id']
  induction e with
  | const v | var x => rfl
  | fluent f es ih | junction f es ih | series f es ih => rw [substitute, hall ih]
  | not e ih => rw [substitute, ih]
  | binary op x y ihx ihy => rw [substitute, ihx, ihy]
  | quantified q vars body ih => rw [substitute, Binding.hide_empty, ih]

theorem freeOccurrences_substitute (b : Binding) (e : Expr) :
    (e.substitute b).freeOccurrences = e.freeOccurrences.filter fun x => b x = none := by
  have hall {b : Binding} {es : List Expr}
      (ih : ∀ e ∈ es, ∀ b, (e.substitute b).freeOccurrences =
        e.freeOccurrences.filter fun x => b x = none) :
      freeOccurrencesOfAll (substituteAll b es) =
        (freeOccurrencesOfAll es).filter fun x => b x = none := by
    rw [freeOccurrencesOfAll_eq, freeOccurrencesOfAll_eq, substituteAll_eq, List.flatMap_map,
      List.filter_flatMap]
    exact List.flatMap_congr fun e he => ih e he b
  induction e generalizing b with
  | const v => rfl
  | var x =>
    cases hx : b x with
    | none => simp [substitute, freeOccurrences, hx]
    | some o => simp [substitute, freeOccurrences, hx]
  | fluent f es ih | junction f es ih | series f es ih => exact hall ih
  | not e ih => exact ih b
  | binary op x y ihx ihy =>
    rw [substitute, freeOccurrences, freeOccurrences, ihx, ihy, List.filter_append]
  | quantified q vars body ih =>
    rw [substitute, freeOccurrences, freeOccurrences, ih, List.filter_filter, List.filter_filter]
    -- where the quantifier does not bind a variable, the substitution is the same under it
    apply List.filter_congr
    intro x _
    by_cases hx : Parameter.binds vars x = true
    · simp [Binding.hide, hx]
    · simp [Binding.hide, hx]

theorem freeVariables_substitute (b : Binding) (e : Expr) :
    (e.substitute b).freeVariables = e.freeVariables.filter fun x => b x = none := by
  apply freeVariables_eq_of_mem_iff
  · exact e.nodup_freeVariables.filter _
  · exact e.pairwise_freeVariables.filter _
  · intro x
    rw [freeOccurrences_substitute, List.mem_filter, List.mem_filter, mem_freeVariables]

theorem substitute_substitute (b c : Binding) (e : Expr) :
    (e.substitute b).substitute c = e.substitute (b.overlay c) := by
  have hall {b c : Binding} {es : List Expr}
      (ih : ∀ e ∈ es, ∀ b c, (e.substitute b).substitute c = e.substitute (b.overlay c)) :
      substituteAll c (substituteAll b es) = substituteAll (b.overlay c) es := by
    rw [substituteAll_eq, substituteAll_eq, substituteAll_eq, List.map_map]
    exact List.map_congr_left fun e he => ih e he b c
  induction e generalizing b c with
  | const v => rfl
  | var x =>
    cases hx : b x with
    | none => simp [substitute, Binding.overlay, hx]
    | some o => simp [substitute, Binding.overlay, hx]
  | fluent f es ih | junction f es ih | series f es ih =>
    rw [substitute, substitute, substitute, hall ih]
  | not e ih => rw [substitute, substitute, substitute, ih]
  | binary op x y ihx ihy => rw [substitute, substitute, substitute, ihx, ihy]
  | quantified q vars body ih =>
    rw [substitute, substitute, substitute, ih, Binding.hide_overlay]

/-! ## Filling in from a table -/

mutual

/-- Puts in the objects that a table lists for variables. Under a quantifier its variables are taken
out of the table, and an empty table ends the search for variables. -/
def fill (m : SortedMap String String) (e : Expr) : Expr :=
  if m.isEmpty then e
  else match e with
    | const v => const v
    | var x =>
      match m.get? x with
      | some o => object o
      | none => var x
    | fluent f args => fluent f (fillAll m args)
    | not e => not (fill m e)
    | junction op es => junction op (fillAll m es)
    | series op es => series op (fillAll m es)
    | binary op x y => binary op (fill m x) (fill m y)
    | quantified q vars body => quantified q vars (fill (Binding.removeAll m vars) body)

def fillAll (m : SortedMap String String) : List Expr → List Expr
  | [] => []
  | e :: es => fill m e :: fillAll m es

end

theorem fillAll_eq (m : SortedMap String String) (es : List Expr) :
    fillAll m es = es.map (fill m) := by
  induction es with
  | nil => rfl
  | cons e es ih => rw [fillAll, ih, List.map_cons]

/-- Where the table is empty, there is nothing to substitute. -/
theorem ite_isEmpty_eq_substitute {m : SortedMap String String} {e e' : Expr}
    (h : e' = e.substitute m.get?) :
    (if m.isEmpty then e else e') = e.substitute m.get? := by
  split
  · next hm =>
    have hnone : m.get? = Binding.empty := by
      funext x
      rw [SortedMap.get?, List.isEmpty_iff.mp hm]
      rfl
    rw [hnone, substitute_empty]
  · exact h

theorem fill_eq (m : SortedMap String String) (e : Expr) : e.fill m = e.substitute m.get? := by
  have hall {m : SortedMap String String} {es : List Expr}
      (ih : ∀ e ∈ es, ∀ m, e.fill m = e.substitute m.get?) :
      fillAll m es = substituteAll m.get? es := by
    rw [fillAll_eq, substituteAll_eq]
    exact List.map_congr_left fun e he => ih e he m
  induction e generalizing m with
  | const v | var x =>
    rw [fill]
    exact ite_isEmpty_eq_substitute rfl
  | fluent f es ih | junction f es ih | series f es ih =>
    rw [fill]
    apply ite_isEmpty_eq_substitute
    rw [substitute, hall ih]
  | not e ih =>
    rw [fill]
    apply ite_isEmpty_eq_substitute
    rw [substitute, ih]
  | binary op x y ihx ihy =>
    rw [fill]
    apply ite_isEmpty_eq_substitute
    rw [substitute, ihx, ihy]
  | quantified q vars body ih =>
    rw [fill]
    apply ite_isEmpty_eq_substitute
    rw [substitute, ih, Binding.get?_removeAll]

/-! ## Scopes -/

/-- Substitution and free variables go by the same scopes. Free after a substitution are those of
the free variables that it does not bind, and what a second substitution adds is looked up where the
first binds nothing. That is so however scopes are followed: a walk with a stack finds the free
variables of every expression, and filling in from any table is substitution. -/
theorem substitute_scoped (b c : Binding) (e : Expr) :
    (e.substitute b).freeVariables = e.freeVariables.filter (fun x => b x = none) ∧
      (e.substitute b).substitute c = e.substitute (b.overlay c) ∧
      e.collect .start = ⟨[], e.freeVariables.toFinset⟩ ∧
      ∀ m : SortedMap String String, e.fill m = e.substitute m.get? :=
  ⟨freeVariables_substitute b e, substitute_substitute b c e, collect_start e, fun m => fill_eq m e⟩

/-- The quantifier binds one `x`; the other is free, and so is `y` at both places. -/
example :
    let on (x y : String) : Expr := .fluent "on" [.var x, .var y]
    let e : Expr := .and [.quantified .universal [⟨"x", "thing"⟩] (on "x" "y"), on "y" "x"]
    (e.collect .start).met = {"x", "y"} ∧
      ((e.fill (.ofList [("x", "crate")])).collect .start).met = {"y"} := by
  decide +kernel

end Expr

end LiftedPlanning
