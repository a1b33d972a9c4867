/-!
# Tuples

The tuples with one component from each of some domains, in lexicographic order of positions
(`tuples`). Their number is the product of the sizes of the domains, so how they are run over
matters. If a domain is empty there are none, however large the others are, and nothing may be
built from the others first: `listTuples` looks for an empty domain before it lists anything. Two
further ways of running over tuples make one at a time and stop as soon as the outcome is known:
`scanTuples` looks for a decisive tuple and `foldTuples` folds until the first failure. All three
are shown equal to the plain list or the plain run over it.
-/

namespace LiftedPlanning

/-- One component from each domain, in every way. No domains give one empty tuple. -/
def tuples {α : Type} : List (List α) → List (List α)
  | [] => [[]]
  | d :: ds =>
    let rest := tuples ds
    d.flatMap fun x => rest.map (x :: ·)

theorem tuples_eq_nil_of_mem {α : Type} {ds : List (List α)} (h : [] ∈ ds) : tuples ds = [] := by
  induction ds with
  | nil => cases h
  | cons d ds ih =>
    rcases List.mem_cons.mp h with rfl | h
    · rfl
    · simp [tuples, ih h]

theorem tuples_eq_nil_of_any {α : Type} {ds : List (List α)} (h : ds.any List.isEmpty = true) :
    tuples ds = [] := by
  obtain ⟨d, hd, he⟩ := List.any_eq_true.mp h
  rw [List.isEmpty_iff.mp he] at hd
  exact tuples_eq_nil_of_mem hd

/-- Lists the tuples of some domains, at once if a domain is empty. -/
def listTuples {α : Type} (ds : List (List α)) : List (List α) :=
  if ds.any List.isEmpty then [] else tuples ds

@[simp] theorem listTuples_eq {α : Type} (ds : List (List α)) : listTuples ds = tuples ds := by
  unfold listTuples
  split
  · next h => exact (tuples_eq_nil_of_any h).symm
  · rfl

/-! ## Looking for a decisive element -/

/-- Tests elements in order up to the first whose outcome is `stop`; the answer is `stop` if there
is one. -/
def scan {α ε : Type} (stop : Bool) (test : α → Except ε Bool) : List α → Except ε Bool
  | [] => .ok (!stop)
  | x :: xs => do if (← test x) = stop then return stop else scan stop test xs

theorem scan_append {α ε : Type} (stop : Bool) (test : α → Except ε Bool) (xs ys : List α) :
    scan stop test (xs ++ ys) =
      (scan stop test xs).bind fun b => if b = stop then .ok stop else scan stop test ys := by
  induction xs with
  | nil => cases stop <;> rfl
  | cons x xs ih =>
    simp only [List.cons_append, scan, ih]
    cases h : test x with
    | error e => rfl
    | ok b =>
      by_cases hb : b = stop <;> simp [bind, Except.bind, pure, Except.pure, hb]

theorem scan_flatMap {α β ε : Type} (stop : Bool) (test : β → Except ε Bool) (f : α → List β)
    (xs : List α) :
    scan stop test (xs.flatMap f) = scan stop (fun x => scan stop test (f x)) xs := by
  induction xs with
  | nil => rfl
  | cons x xs ih =>
    simp only [List.flatMap_cons, scan_append, ih, scan, bind, pure, Except.pure]

theorem scan_map {α β ε : Type} (stop : Bool) (test : β → Except ε Bool) (f : α → β)
    (xs : List α) : scan stop test (xs.map f) = scan stop (fun x => test (f x)) xs := by
  induction xs with
  | nil => rfl
  | cons x xs ih => simp [scan, ih]

/-- A scan depends only on how the elements it is given test. -/
theorem scan_congr {α ε : Type} (stop : Bool) {test test' : α → Except ε Bool} {xs : List α}
    (h : ∀ x ∈ xs, test x = test' x) : scan stop test xs = scan stop test' xs := by
  induction xs with
  | nil => rfl
  | cons x xs ih =>
    rw [scan, scan, h x (List.mem_cons_self ..), ih fun y hy => h y (List.mem_cons_of_mem _ hy)]

def scanProduct {α ε : Type} (stop : Bool) (test : List α → Except ε Bool) :
    List (List α) → Except ε Bool
  | [] => test []
  | d :: ds => scan stop (fun x => scanProduct stop (fun xs => test (x :: xs)) ds) d

theorem scanProduct_eq {α ε : Type} (stop : Bool) (test : List α → Except ε Bool)
    (ds : List (List α)) : scanProduct stop test ds = scan stop test (tuples ds) := by
  induction ds generalizing test with
  | nil =>
    simp only [scanProduct, tuples, scan, bind, Except.bind, pure, Except.pure]
    cases test [] with
    | error e => rfl
    | ok b => cases b <;> cases stop <;> rfl
  | cons d ds ih => simp only [scanProduct, tuples, scan_flatMap, scan_map, ih]

/-- Scans the tuples of some domains, up to the first that decides. -/
def scanTuples {α ε : Type} (stop : Bool) (test : List α → Except ε Bool) (ds : List (List α)) :
    Except ε Bool :=
  if ds.any List.isEmpty then .ok (!stop) else scanProduct stop test ds

theorem scanTuples_eq {α ε : Type} (stop : Bool) (test : List α → Except ε Bool)
    (ds : List (List α)) : scanTuples stop test ds = scan stop test (tuples ds) := by
  unfold scanTuples
  split
  · next h => rw [tuples_eq_nil_of_any h, scan]
  · exact scanProduct_eq stop test ds

/-! ## Folding -/

def foldProduct {α σ ε : Type} (step : σ → List α → Except ε σ) (s : σ) :
    List (List α) → Except ε σ
  | [] => step s []
  | d :: ds => d.foldlM (fun s x => foldProduct (fun s xs => step s (x :: xs)) s ds) s

theorem foldlM_flatMap {α β σ ε : Type} (step : σ → β → Except ε σ) (f : α → List β) (s : σ)
    (xs : List α) :
    (xs.flatMap f).foldlM step s = xs.foldlM (fun s x => (f x).foldlM step s) s := by
  induction xs generalizing s with
  | nil => rfl
  | cons x xs ih =>
    simp only [List.flatMap_cons, List.foldlM_append, List.foldlM_cons]
    cases (f x).foldlM step s with
    | error e => rfl
    | ok s' => exact ih s'

theorem foldProduct_eq {α σ ε : Type} (step : σ → List α → Except ε σ) (s : σ)
    (ds : List (List α)) : foldProduct step s ds = (tuples ds).foldlM step s := by
  induction ds generalizing step s with
  | nil =>
    simp only [foldProduct, tuples, List.foldlM_cons, List.foldlM_nil]
    cases step s [] <;> rfl
  | cons d ds ih => simp only [foldProduct, tuples, foldlM_flatMap, List.foldlM_map, ih]

/-- Folds over the tuples of some domains, up to the first failure. -/
def foldTuples {α σ ε : Type} (step : σ → List α → Except ε σ) (s : σ) (ds : List (List α)) :
    Except ε σ :=
  if ds.any List.isEmpty then .ok s else foldProduct step s ds

theorem foldTuples_eq {α σ ε : Type} (step : σ → List α → Except ε σ) (s : σ)
    (ds : List (List α)) : foldTuples step s ds = (tuples ds).foldlM step s := by
  unfold foldTuples
  split
  · next h =>
    rw [tuples_eq_nil_of_any h]
    rfl
  · exact foldProduct_eq step s ds

end LiftedPlanning
