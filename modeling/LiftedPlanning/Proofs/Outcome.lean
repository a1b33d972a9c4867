import LiftedPlanning.Validation
import Mathlib.Data.List.Forall2

/-!
# Comparing outcomes

Two computations that may fail are compared by `Follows`: what the first one answers, the second
one answers as well, up to a relation between the answers. The comparison is *exact* if failures
count too: then the second one fails whenever the first one does, with an error of the same kind.
Without exactness nothing is said about a first computation that fails.

One relation serves both comparisons of a problem with its grounding. Pruning folds away operands
that could have failed, so a pruned grounding only follows; without pruning it follows exactly.

Before that, a single outcome is taken apart: what its answer was made of, when there is one, and
which failures there can be (`FailsOnly`).
-/

namespace LiftedPlanning

theorem forall₂_map_right {α β : Type} {R : α → β → Prop} {f : α → β} {xs : List α}
    (h : ∀ x ∈ xs, R x (f x)) : List.Forall₂ R xs (xs.map f) :=
  List.forall₂_map_right_iff.mpr (List.forall₂_same.mpr h)

theorem exists_left_of_forall₂ {α β : Type} {R : α → β → Prop} {xs : List α} {ys : List β}
    (h : List.Forall₂ R xs ys) {y : β} (hy : y ∈ ys) : ∃ x ∈ xs, R x y := by
  induction h with
  | nil => cases hy
  | cons hxy _ ih =>
    rcases List.mem_cons.mp hy with rfl | hy
    · exact ⟨_, List.mem_cons_self, hxy⟩
    · obtain ⟨x, hx, hxy⟩ := ih hy
      exact ⟨x, List.mem_cons_of_mem _ hx, hxy⟩

/-- Where every element has an answer, the list has the list of the answers. -/
theorem mapM_eq_pure {m : Type → Type} [Monad m] [LawfulMonad m] {α β : Type} {f : α → m β}
    {g : α → β} {xs : List α} (h : ∀ x ∈ xs, f x = pure (g x)) : xs.mapM f = pure (xs.map g) := by
  induction xs with
  | nil => exact List.mapM_nil
  | cons x xs ih =>
    obtain ⟨hx, hxs⟩ := List.forall_mem_cons.mp h
    rw [List.mapM_cons, hx, pure_bind, ih hxs, pure_bind, List.map_cons]

/-! ## Answers of composed computations -/

section Answers

variable {ε δ α β : Type}

theorem bind_eq_ok {x : Except ε α} {f : α → Except ε β} {b : β} :
    x >>= f = .ok b ↔ ∃ a, x = .ok a ∧ f a = .ok b := by
  constructor
  · intro h
    cases x with
    | error e => cases h
    | ok a => exact ⟨a, rfl, h⟩
  · rintro ⟨a, rfl, h⟩
    exact h

theorem bind_eq_error {x : Except ε α} {f : α → Except ε β} {e : ε} :
    x >>= f = .error e ↔ x = .error e ∨ ∃ a, x = .ok a ∧ f a = .error e := by
  constructor
  · intro h
    cases x with
    | error e' => exact .inl (congrArg Except.error (Except.error.inj h))
    | ok a => exact .inr ⟨a, rfl, h⟩
  · rintro (rfl | ⟨a, rfl, h⟩)
    · rfl
    · exact h

theorem map_eq_ok {x : Except ε α} {f : α → β} {b : β} :
    x.map f = .ok b ↔ ∃ a, x = .ok a ∧ f a = b := by
  cases x <;> simp [Except.map]

theorem mapError_eq_error {x : Except ε α} {f : ε → δ} {d : δ} :
    x.mapError f = .error d ↔ ∃ e, x = .error e ∧ f e = d := by
  cases x <;> simp [Except.mapError]

theorem mapError_eq_ok {x : Except ε α} {f : ε → δ} {a : α} :
    x.mapError f = .ok a ↔ x = .ok a := by
  cases x <;> simp [Except.mapError]

theorem mapM_eq_ok {f : α → Except ε β} {xs : List α} {ys : List β} :
    xs.mapM f = .ok ys ↔ List.Forall₂ (fun x y => f x = .ok y) xs ys := by
  induction xs generalizing ys with
  | nil =>
    rw [List.mapM_nil, List.forall₂_nil_left_iff]
    constructor
    · rintro ⟨⟩
      rfl
    · rintro rfl
      rfl
  | cons x xs ih =>
    rw [List.mapM_cons, bind_eq_ok, List.forall₂_cons_left_iff]
    constructor
    · rintro ⟨y, hy, h⟩
      obtain ⟨ys, hys, h⟩ := bind_eq_ok.mp h
      cases h
      exact ⟨y, ys, hy, ih.mp hys, rfl⟩
    · rintro ⟨y, ys, hy, hys, rfl⟩
      exact ⟨y, hy, bind_eq_ok.mpr ⟨ys, ih.mpr hys, rfl⟩⟩

theorem forall₂_of_mapM {R : α → β → Prop} {f : α → Except ε β} {xs : List α} {ys : List β}
    (h : xs.mapM f = .ok ys) (hR : ∀ x ∈ xs, ∀ y, f x = .ok y → R x y) :
    List.Forall₂ R xs ys := by
  replace h := mapM_eq_ok.mp h
  induction h with
  | nil => exact .nil
  | cons hxy _ ih =>
    obtain ⟨hx, hxs⟩ := List.forall_mem_cons.mp hR
    exact .cons (hx _ hxy) (ih hxs)

theorem exists_of_mem_mapM {f : α → Except ε β} {xs : List α} {ys : List β}
    (h : xs.mapM f = .ok ys) {y : β} (hy : y ∈ ys) : ∃ x ∈ xs, f x = .ok y :=
  exists_left_of_forall₂ (mapM_eq_ok.mp h) hy

theorem exists_mem_of_mapM {f : α → Except ε β} {xs : List α} {ys : List β}
    (h : xs.mapM f = .ok ys) {x : α} (hx : x ∈ xs) : ∃ y ∈ ys, f x = .ok y :=
  exists_left_of_forall₂ (mapM_eq_ok.mp h).flip hx

theorem bind_total {x : Except ε α} {f : α → Except ε β} (hx : ∃ a, x = .ok a)
    (hf : ∀ a, x = .ok a → ∃ b, f a = .ok b) : ∃ b, x >>= f = .ok b := by
  obtain ⟨a, rfl⟩ := hx
  exact hf a rfl

theorem mapError_total {x : Except ε α} {f : ε → δ} (hx : ∃ a, x = .ok a) :
    ∃ a, x.mapError f = .ok a := by
  obtain ⟨a, rfl⟩ := hx
  exact ⟨a, rfl⟩

theorem mapM_total {f : α → Except ε β} {xs : List α} (h : ∀ x ∈ xs, ∃ y, f x = .ok y) :
    ∃ ys, xs.mapM f = .ok ys := by
  induction xs with
  | nil => exact ⟨[], rfl⟩
  | cons x xs ih =>
    obtain ⟨hx, hxs⟩ := List.forall_mem_cons.mp h
    rw [List.mapM_cons]
    exact bind_total hx fun y _ => bind_total (ih hxs) fun ys _ => ⟨y :: ys, rfl⟩

/-- A check has only one answer to go on with. -/
theorem check_bind_eq_ok {x : Except ε Unit} {f : Unit → Except ε β} {b : β} :
    x >>= f = .ok b ↔ x = .ok () ∧ f () = .ok b := by
  rw [bind_eq_ok]
  exact ⟨fun ⟨_, hx, hf⟩ => ⟨hx, hf⟩, fun ⟨hx, hf⟩ => ⟨(), hx, hf⟩⟩

theorem forM_eq_ok {f : α → Except ε Unit} {xs : List α} :
    xs.forM f = .ok () ↔ ∀ x ∈ xs, f x = .ok () := by
  induction xs with
  | nil => exact ⟨fun _ => List.forall_mem_nil _, fun _ => rfl⟩
  | cons x xs ih =>
    rw [List.forall_mem_cons, ← ih]
    exact check_bind_eq_ok

/-- What every step of a run keeps, the run keeps. -/
theorem foldlM_keeps {σ : Type} {I : σ → Prop} {f : σ → α → Except ε σ} {xs : List α} {s t : σ}
    (h : xs.foldlM f s = .ok t) (hs : I s)
    (hstep : ∀ s, I s → ∀ x ∈ xs, ∀ s', f s x = .ok s' → I s') : I t := by
  induction xs generalizing s with
  | nil =>
    cases h
    exact hs
  | cons x xs ih =>
    rw [List.foldlM_cons] at h
    obtain ⟨s', hx, hxs⟩ := bind_eq_ok.mp h
    refine ih hxs (hstep s hs x List.mem_cons_self s' hx) fun u hu y hy => ?_
    exact hstep u hu y (List.mem_cons_of_mem _ hy)

end Answers

/-! ## Failures that may be -/

/-- If the computation fails, then with an error that may be. -/
def FailsOnly {ε α : Type} (allowed : ε → Prop) (x : Except ε α) : Prop :=
  ∀ e, x = .error e → allowed e

namespace FailsOnly

variable {ε δ α β σ : Type} {allowed : ε → Prop}

theorem ok (a : α) : FailsOnly allowed (.ok a : Except ε α) := nofun

theorem error {e : ε} (h : allowed e) : FailsOnly allowed (.error e : Except ε α) := by
  rintro _ ⟨⟩
  exact h

theorem of_total {x : Except ε α} (h : ∃ a, x = .ok a) : FailsOnly allowed x := by
  obtain ⟨a, rfl⟩ := h
  exact ok a

theorem mono {allowed' : ε → Prop} {x : Except ε α} (hx : FailsOnly allowed x)
    (h : ∀ e, allowed e → allowed' e) : FailsOnly allowed' x := fun e he => h e (hx e he)

/-- Going on may use what the first computation has answered. -/
theorem bind {x : Except ε α} {f : α → Except ε β} (hx : FailsOnly allowed x)
    (hf : ∀ a, x = .ok a → FailsOnly allowed (f a)) : FailsOnly allowed (x >>= f) := by
  intro e he
  rcases bind_eq_error.mp he with he | ⟨a, ha, he⟩
  · exact hx e he
  · exact hf a ha e he

theorem mapError {x : Except ε α} {f : ε → δ} {allowed' : δ → Prop} (hx : FailsOnly allowed x)
    (hf : ∀ e, allowed e → allowed' (f e)) : FailsOnly allowed' (x.mapError f) := by
  intro d hd
  obtain ⟨e, he, rfl⟩ := mapError_eq_error.mp hd
  exact hf e (hx e he)

theorem mapM {f : α → Except ε β} {xs : List α} (h : ∀ x ∈ xs, FailsOnly allowed (f x)) :
    FailsOnly allowed (xs.mapM f) := by
  induction xs with
  | nil => exact ok []
  | cons x xs ih =>
    obtain ⟨hx, hxs⟩ := List.forall_mem_cons.mp h
    rw [List.mapM_cons]
    exact hx.bind fun y _ => (ih hxs).bind fun ys _ => ok (y :: ys)

/-- A run that keeps an invariant fails only as its steps do under the invariant. -/
theorem foldlM {I : σ → Prop} {f : σ → α → Except ε σ} {xs : List α}
    (hfails : ∀ s, I s → ∀ x ∈ xs, FailsOnly allowed (f s x))
    (hkeeps : ∀ s, I s → ∀ x s', f s x = .ok s' → I s') {s : σ} (hs : I s) :
    FailsOnly allowed (xs.foldlM f s) := by
  induction xs generalizing s with
  | nil => exact ok s
  | cons x xs ih =>
    rw [List.foldlM_cons]
    refine (hfails s hs x List.mem_cons_self).bind fun s' hs' => ?_
    exact ih (fun t ht y hy => hfails t ht y (List.mem_cons_of_mem _ hy)) (hkeeps s hs x s' hs')

theorem foldlM_steps {f : σ → α → Except ε σ} {xs : List α}
    (h : ∀ s, ∀ x ∈ xs, FailsOnly allowed (f s x)) (s : σ) : FailsOnly allowed (xs.foldlM f s) := by
  have hnone : ∀ s, True → ∀ x s', f s x = .ok s' → True := fun _ _ _ _ _ => trivial
  exact foldlM (fun s _ => h s) hnone trivial

theorem scan {stop : Bool} {test : α → Except ε Bool} {xs : List α}
    (h : ∀ x ∈ xs, FailsOnly allowed (test x)) : FailsOnly allowed (scan stop test xs) := by
  induction xs with
  | nil => exact ok _
  | cons x xs ih =>
    obtain ⟨hx, hxs⟩ := List.forall_mem_cons.mp h
    rw [LiftedPlanning.scan]
    refine hx.bind fun p _ => ?_
    split
    · exact ok stop
    · exact ih hxs

end FailsOnly

/-! ## Kinds of errors -/

/-- Errors that come in kinds. Two errors of a kind may differ in the cause they name. -/
class Kinded (ε : Type) where
  SameKind : ε → ε → Prop
  refl (e : ε) : SameKind e e
  trans {e f g : ε} : SameKind e f → SameKind f g → SameKind e g

def ModelError.SameKind (e f : ModelError) : Prop := e.ctorIdx = f.ctorIdx

/-- Validation errors of the same kind; of wrapped model errors, the kinds are compared. -/
def ValidationError.SameKind : ValidationError → ValidationError → Prop
  | missingActionCost _, missingActionCost _ => True
  | cancelled, cancelled => True
  | model e, model f => e.SameKind f
  | _, _ => False

instance : Kinded ModelError where
  SameKind := ModelError.SameKind
  refl _ := rfl
  trans := Eq.trans

instance : Kinded ValidationError where
  SameKind := ValidationError.SameKind
  refl e := by
    cases e with
    | missingActionCost a => trivial
    | cancelled => trivial
    | model e => exact (rfl : e.ctorIdx = e.ctorIdx)
  trans {e f g} hef hfg := by
    cases e <;> cases f <;> cases g <;>
      first
        | trivial
        | exact hef.elim
        | exact hfg.elim
        | exact Eq.trans (b := ModelError.ctorIdx _) hef hfg

/-! ## Following -/

section Follows

variable {ε α β γ δ : Type} [Kinded ε] {exact : Prop}

/-- The second outcome follows the first: answers are related, and with exactness failures are of
the same kind. -/
def Follows (exact : Prop) (R : α → β → Prop) : Except ε α → Except ε β → Prop
  | .ok a, .ok b => R a b
  | .ok _, .error _ => False
  | .error _, .ok _ => ¬ exact
  | .error e, .error f => exact → Kinded.SameKind e f

namespace Follows

variable {R : α → β → Prop} {S : γ → δ → Prop} {x : Except ε α} {y : Except ε β}

theorem of_ok {a : α} (h : Follows exact R x y) (hx : x = .ok a) : ∃ b, y = .ok b ∧ R a b := by
  subst hx
  cases y with
  | ok b => exact ⟨b, rfl, h⟩
  | error f => exact h.elim

/-- What the second outcome answers, the first one answers if it does not fail, which it cannot
where the comparison is exact. -/
theorem of_ok_right {b : β} (h : Follows exact R x y) (hy : y = .ok b)
    (hx : exact ∨ ∃ a, x = .ok a) : ∃ a, x = .ok a ∧ R a b := by
  subst hy
  cases x with
  | ok a => exact ⟨a, rfl, h⟩
  | error e =>
    rcases hx with hexact | ⟨a, ⟨⟩⟩
    exact absurd hexact h

/-- Without exactness only answers have to be followed. -/
theorem inexact_iff : Follows False R x y ↔ ∀ a, x = .ok a → ∃ b, y = .ok b ∧ R a b := by
  constructor
  · intro h a hx
    exact h.of_ok hx
  · intro h
    cases x with
    | ok a =>
      obtain ⟨b, rfl, hab⟩ := h a rfl
      exact hab
    | error e =>
      cases y with
      | ok b => exact not_false
      | error f => exact False.elim

/-- With exactness both answer or both fail. -/
theorem exact_iff : Follows True R x y ↔
    (∃ a b, x = .ok a ∧ y = .ok b ∧ R a b) ∨
      ∃ e f, x = .error e ∧ y = .error f ∧ Kinded.SameKind e f := by
  constructor
  · intro h
    cases x with
    | ok a =>
      obtain ⟨b, hb, hab⟩ := h.of_ok rfl
      exact .inl ⟨a, b, rfl, hb, hab⟩
    | error e =>
      cases y with
      | ok b => exact (h trivial).elim
      | error f => exact .inr ⟨e, f, rfl, rfl, h trivial⟩
  · rintro (⟨a, b, rfl, rfl, hab⟩ | ⟨e, f, rfl, rfl, hef⟩)
    · exact hab
    · exact fun _ => hef

theorem of_inexact (hexact : ¬ exact) (h : Follows False R x y) : Follows exact R x y := by
  rwa [eq_false hexact]

theorem inexact (h : Follows exact R x y) : Follows False R x y :=
  inexact_iff.mpr fun _ hx => h.of_ok hx

theorem mono {T : α → β → Prop} (h : Follows exact R x y) (hRT : ∀ a b, R a b → T a b) :
    Follows exact T x y := by
  cases x <;> cases y
  · exact h
  · exact h
  · exact h
  · exact hRT _ _ h

theorem refl (x : Except ε α) : Follows exact (· = ·) x x := by
  cases x with
  | ok a => exact rfl
  | error e => exact fun _ => Kinded.refl e

/-- Following composes; in between, the answers are the same. -/
theorem trans {w : Except ε α} (h₁ : Follows exact (· = ·) x w) (h₂ : Follows exact R w y) :
    Follows exact R x y := by
  cases x with
  | ok a =>
    obtain ⟨_, rfl, rfl⟩ := h₁.of_ok rfl
    exact h₂
  | error e =>
    cases w with
    | ok a =>
      -- the middle answers where the first fails, so the comparison is not exact
      have hexact : ¬ exact := h₁
      cases y with
      | ok b => exact hexact
      | error f => exact fun hex => absurd hex hexact
    | error f =>
      cases y with
      | ok b => exact h₂
      | error g => exact fun hex => Kinded.trans (h₁ hex) (h₂ hex)

theorem bind {f : α → Except ε γ} {g : β → Except ε δ} (h : Follows exact R x y)
    (hfg : ∀ a b, R a b → Follows exact S (f a) (g b)) :
    Follows exact S (x >>= f) (y >>= g) := by
  cases x with
  | ok a =>
    obtain ⟨b, rfl, hab⟩ := h.of_ok rfl
    exact hfg a b hab
  | error e =>
    cases y with
    | ok b =>
      have hexact : ¬ exact := h
      show Follows exact S (.error e) (g b)
      cases g b with
      | ok d => exact hexact
      | error f => exact fun hex => absurd hex hexact
    | error f => exact h

/-- Following when both go on with the same answer. -/
theorem bind_same {w : Except ε α} {f : α → Except ε γ} {g : α → Except ε δ}
    (h : Follows exact (· = ·) x w) (hfg : ∀ a, Follows exact S (f a) (g a)) :
    Follows exact S (x >>= f) (w >>= g) :=
  h.bind fun a _ hab => hab ▸ hfg a

/-- The related answers are answers of the first computation. -/
theorem answers (h : Follows exact R x y) : Follows exact (fun a b => R a b ∧ x = .ok a) x y := by
  cases x <;> cases y
  · exact h
  · exact h
  · exact h
  · exact ⟨h, rfl⟩

theorem mapM {f : α → Except ε γ} {g : β → Except ε δ} {xs : List α} {ys : List β}
    (h : List.Forall₂ (fun x y => Follows exact S (f x) (g y)) xs ys) :
    Follows exact (List.Forall₂ S) (xs.mapM f) (ys.mapM g) := by
  induction h with
  | nil => exact List.Forall₂.nil
  | cons hxy _ ih =>
    rw [List.mapM_cons, List.mapM_cons]
    exact hxy.bind fun a b hab => ih.bind fun as bs habs => List.Forall₂.cons hab habs

end Follows

end Follows

/-- Wrapping the errors of the model into those of a validation. -/
theorem Follows.mapError_model {α β : Type} {exact : Prop} {R : α → β → Prop}
    {x : Except ModelError α} {y : Except ModelError β} (h : Follows exact R x y) :
    Follows exact R (x.mapError ValidationError.model) (y.mapError ValidationError.model) := by
  cases x <;> cases y <;> exact h

end LiftedPlanning
