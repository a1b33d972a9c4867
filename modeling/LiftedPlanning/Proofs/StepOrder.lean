import LiftedPlanning.Proofs.GroundProblem
import Mathlib.Data.List.Lex
import Mathlib.Data.Prod.Lex

/-!
# The order of steps and plans

Plans are ranked by their length, and plans of equal length by the positions of their steps in the
list of candidates (`Plan.rank`). A plan ranks below its continuations, and the ranking of
continuations follows that of what is continued.

The order of the candidates is the order of declaration: first that of their actions, then that of
their arguments from the left (`Problem.place`, `Grounder.candidates_ordered`).
-/

namespace LiftedPlanning

/-! ## Lexicographic order -/

/-- Tuples over ordered domains are in lexicographic order. -/
theorem tuples_ordered {α : Type} {r : α → α → Prop} {ds : List (List α)}
    (h : ∀ d ∈ ds, d.Pairwise r) : (tuples ds).Pairwise (List.Lex r) := by
  induction ds with
  | nil => exact List.pairwise_singleton _ _
  | cons d ds ih =>
    obtain ⟨hd, hds⟩ := List.forall_mem_cons.mp h
    refine List.pairwise_flatMap.mpr ⟨fun x _ => ?_, hd.imp fun {x y} hxy => ?_⟩
    · -- with the same first component the others decide
      exact List.pairwise_map.mpr ((ih hds).imp fun hrest => .cons hrest)
    · intro xs hxs ys hys
      obtain ⟨xs', _, rfl⟩ := List.mem_map.mp hxs
      obtain ⟨ys', _, rfl⟩ := List.mem_map.mp hys
      exact .rel hxy

/-- Between lists of equal length the order is decided before what stands behind them. -/
theorem lex_append {α : Type} {r : α → α → Prop} {xs ys : List α} (h : List.Lex r xs ys)
    (hlen : xs.length = ys.length) (us vs : List α) : List.Lex r (xs ++ us) (ys ++ vs) := by
  induction h with
  | nil => cases hlen
  | cons _ ih => exact .cons (ih (Nat.succ.inj hlen))
  | rel hxy => exact .rel hxy

/-- In a list of distinct elements every element stands behind those before it. -/
theorem pairwise_idxOf {α : Type} [DecidableEq α] {l : List α} (h : l.Nodup) :
    l.Pairwise fun a b => l.idxOf a < l.idxOf b := by
  rw [List.pairwise_iff_getElem]
  intro i j hi hj hij
  rwa [h.idxOf_getElem i hi, h.idxOf_getElem j hj]

/-- An order of elements carries over to what the elements are related to. -/
theorem pairwise_of_forall₂ {α β : Type} {R : α → β → Prop} {S : α → α → Prop} {T : β → β → Prop}
    {xs : List α} {ys : List β} (h : List.Forall₂ R xs ys) (hxs : xs.Pairwise S)
    (hT : ∀ {x x' : α} {y y' : β}, R x y → R x' y' → S x x' → T y y') : ys.Pairwise T := by
  induction h with
  | nil => exact .nil
  | cons hxy hrest ih =>
    obtain ⟨hx, hxs⟩ := List.pairwise_cons.mp hxs
    refine List.pairwise_cons.mpr ⟨fun y' hy' => ?_, ih hxs⟩
    obtain ⟨x', hx', hxy'⟩ := exists_left_of_forall₂ hrest hy'
    exact hT hxy hxy' (hx x' hx')

/-! ## Ranks of plans -/

namespace Plan

def positions (cs : List Candidate) (p : Plan) : List ℕ :=
  p.map (cs.map Candidate.step).idxOf

/-- How a plan ranks: by its length, then by the positions of its steps from the left. -/
def rank (cs : List Candidate) (p : Plan) : ℕ ×ₗ List ℕ := toLex (p.length, positions cs p)

variable {cs : List Candidate} {p q : Plan} {i j : ActionInstance}

theorem rank_lt_iff :
    rank cs p < rank cs q ↔
      p.length < q.length ∨ p.length = q.length ∧ positions cs p < positions cs q :=
  Prod.Lex.toLex_lt_toLex

theorem rank_le_iff :
    rank cs p ≤ rank cs q ↔
      p.length < q.length ∨ p.length = q.length ∧ positions cs p ≤ positions cs q :=
  Prod.Lex.toLex_le_toLex

theorem length_concat (p : Plan) (i : ActionInstance) : (p ++ [i]).length = p.length + 1 :=
  List.length_append

theorem positions_concat (p : Plan) (i : ActionInstance) :
    positions cs (p ++ [i]) = positions cs p ++ [(cs.map Candidate.step).idxOf i] :=
  List.map_append

theorem rank_nil_le (q : Plan) : rank cs [] ≤ rank cs q := by
  rw [rank_le_iff]
  cases q with
  | nil => exact .inr ⟨rfl, le_rfl⟩
  | cons i q => exact .inl (Nat.succ_pos _)

theorem rank_lt_concat (p : Plan) (i : ActionInstance) : rank cs p < rank cs (p ++ [i]) := by
  refine rank_lt_iff.mpr (.inl ?_)
  rw [length_concat]
  exact Nat.lt_succ_self _

/-- Continuations of plans rank as the plans do, whatever the steps are. -/
theorem rank_concat_lt (h : rank cs p < rank cs q) (i j : ActionInstance) :
    rank cs (p ++ [i]) < rank cs (q ++ [j]) := by
  rw [rank_lt_iff, length_concat, length_concat, positions_concat, positions_concat]
  rcases rank_lt_iff.mp h with hlt | ⟨heq, hlt⟩
  · exact .inl (Nat.succ_lt_succ hlt)
  · refine .inr ⟨congrArg Nat.succ heq, lex_append hlt ?_ _ _⟩
    rw [positions, positions, List.length_map, List.length_map, heq]

/-- Continuations of one plan rank as their last steps do. -/
theorem rank_concat_lt_of_position (p : Plan)
    (h : (cs.map Candidate.step).idxOf i < (cs.map Candidate.step).idxOf j) :
    rank cs (p ++ [i]) < rank cs (p ++ [j]) := by
  rw [rank_lt_iff, length_concat, length_concat, positions_concat, positions_concat]
  exact .inr ⟨rfl, List.Lex.append_left _ (.rel h) _⟩

theorem rank_concat_le (h : rank cs p ≤ rank cs q) (i : ActionInstance) :
    rank cs (p ++ [i]) ≤ rank cs (q ++ [i]) := by
  rcases h.lt_or_eq with hlt | heq
  · exact (rank_concat_lt hlt i i).le
  · obtain ⟨hlength, hpositions⟩ := Prod.mk.inj (toLex.injective heq)
    rw [rank_le_iff, length_concat, length_concat, positions_concat, positions_concat, hlength,
      hpositions]
    exact .inr ⟨rfl, le_rfl⟩

/-- Plans of candidates are told apart by their positions. -/
theorem eq_of_positions (hp : ∀ i ∈ p, i ∈ cs.map Candidate.step)
    (h : positions cs p = positions cs q) : p = q := by
  induction p generalizing q with
  | nil => exact (List.map_eq_nil_iff.mp h.symm).symm
  | cons i p ih =>
    obtain ⟨j, q, rfl⟩ := List.exists_cons_of_ne_nil (l := q) (by rintro rfl; cases h)
    obtain ⟨hi, hrest⟩ := List.forall_mem_cons.mp hp
    obtain ⟨hposition, hpositions⟩ := List.cons.inj h
    rw [(List.idxOf_inj hi).mp hposition, ih hrest hpositions]

end Plan

/-! ## Places of steps -/

/-- Where a step stands by declaration: the position of its action, then the positions of its
arguments. -/
def Problem.place (P : Problem) (i : ActionInstance) : ℕ ×ₗ List ℕ :=
  toLex ((P.actions.map Action.name).idxOf i.action,
    i.args.map (P.objects.map Object.name).idxOf)

/-! ## Argument lists -/

namespace Vocabulary

variable {V : Vocabulary}

def positions (V : Vocabulary) (args : List String) : List ℕ :=
  args.map (V.objects.map Object.name).idxOf

theorem domain_ordered (hV : V.ObjectsDistinct) {p : Parameter} {d : List String}
    (h : V.domain p = .ok d) :
    d.Pairwise fun x y =>
      (V.objects.map Object.name).idxOf x < (V.objects.map Object.name).idxOf y := by
  rw [domain_eq_ok h]
  exact (pairwise_idxOf hV).sublist (List.filter_sublist.map Object.name)

/-- Argument lists are enumerated in lexicographic order of the positions of their objects. -/
theorem tuples_domains_ordered (hV : V.ObjectsDistinct) {params : List Parameter}
    {ds : List (List String)} (h : V.domains params = .ok ds) :
    (tuples ds).Pairwise fun xs ys => V.positions xs < V.positions ys := by
  have hdomains : ∀ d ∈ ds, d.Pairwise fun x y =>
      (V.objects.map Object.name).idxOf x < (V.objects.map Object.name).idxOf y := by
    intro d hd
    obtain ⟨p, _, hp⟩ := exists_of_mem_mapM h hd
    exact domain_ordered hV hp
  refine (tuples_ordered hdomains).imp fun {xs ys} hlex => ?_
  show List.Lex (· < ·) (xs.map _) (ys.map _)
  induction hlex with
  | nil => exact .nil
  | cons _ ih => exact .cons ih
  | rel hxy => exact .rel hxy

end Vocabulary

/-! ## Candidates -/

namespace Grounder

variable {P : Problem} {cs : List Candidate}

/-- Candidates of one action are ordered by their arguments. -/
theorem candidatesOf_ordered (hV : P.toVocabulary.ObjectsDistinct) {a : Action}
    (h : BreadthFirstPlanner.candidatesOf P a = .ok cs) :
    cs.Pairwise fun c d => P.place c.step < P.place d.step := by
  obtain ⟨ds, hds, rfl⟩ := candidatesOf_eq_ok h
  have hargs := Vocabulary.tuples_domains_ordered hV hds
  refine List.pairwise_map.mpr (hargs.imp fun {xs ys} hlt => ?_)
  exact Prod.Lex.toLex_lt_toLex.mpr (.inr ⟨rfl, hlt⟩)

/-- Candidates come in the order of their places. -/
theorem candidates_ordered (hP : P.NamesDistinct)
    (h : BreadthFirstPlanner.candidates P = .ok cs) :
    cs.Pairwise fun c d => P.place c.step < P.place d.step := by
  obtain ⟨css, hcss, ⟨⟩⟩ := bind_eq_ok.mp h
  have hactions : P.actions.Pairwise fun a b =>
      (P.actions.map Action.name).idxOf a.name < (P.actions.map Action.name).idxOf b.name :=
    List.Pairwise.of_map Action.name (fun _ _ hab => hab) (pairwise_idxOf hP.actions)
  refine List.pairwise_flatten.mpr ⟨fun l hl => ?_, ?_⟩
  · obtain ⟨a, _, hl⟩ := exists_of_mem_mapM hcss hl
    exact candidatesOf_ordered hP.objects hl
  · -- between different actions the position of the action decides
    refine pairwise_of_forall₂ (mapM_eq_ok.mp hcss) hactions fun hl hl' hab c hc d hd => ?_
    obtain ⟨_, _, rfl⟩ := candidatesOf_eq_ok hl
    obtain ⟨_, _, rfl⟩ := candidatesOf_eq_ok hl'
    obtain ⟨_, _, rfl⟩ := List.mem_map.mp hc
    obtain ⟨_, _, rfl⟩ := List.mem_map.mp hd
    exact Prod.Lex.toLex_lt_toLex.mpr (.inl hab)

end Grounder

end LiftedPlanning
