import LiftedPlanning.Grounding.Grounder
import LiftedPlanning.Proofs.Outcome

/-!
# Settings of the grounder

Only pruning has a say in what a grounder makes of a problem. The features it accepts, its limit
on ground actions and its cancellation decide whether it answers at all. So of two grounders that
agree on pruning, what one answers the other one answers too, or else it fails with the error of a
setting in which they differ (`Grounder.compile_answersOr`).
-/

namespace LiftedPlanning

/-! ## Answering or refusing -/

/-- What the first computation answers the second one answers too, unless it fails with an error
that may be. -/
def AnswersOr {ε α : Type} (refusal : ε → Prop) (x y : Except ε α) : Prop :=
  ∀ a, x = .ok a → y = .ok a ∨ ∃ e, y = .error e ∧ refusal e

namespace AnswersOr

variable {ε α β σ : Type} {refusal : ε → Prop}

theorem refl (x : Except ε α) : AnswersOr refusal x x := fun _ => .inl

theorem refuse {x : Except ε α} {e : ε} (he : refusal e) : AnswersOr refusal x (.error e) :=
  fun _ _ => .inr ⟨e, rfl, he⟩

theorem of_error {e : ε} {y : Except ε α} : AnswersOr refusal (.error e) y := nofun

theorem bind {x y : Except ε α} {f g : α → Except ε β} (h : AnswersOr refusal x y)
    (hfg : ∀ a, AnswersOr refusal (f a) (g a)) : AnswersOr refusal (x >>= f) (y >>= g) := by
  intro b hb
  obtain ⟨a, ha, hb⟩ := bind_eq_ok.mp hb
  rcases h a ha with rfl | ⟨e, rfl, he⟩
  · exact hfg a b hb
  · exact .inr ⟨e, rfl, he⟩

theorem foldlM {f g : σ → α → Except ε σ} (h : ∀ s a, AnswersOr refusal (f s a) (g s a))
    (xs : List α) (s : σ) : AnswersOr refusal (xs.foldlM f s) (xs.foldlM g s) := by
  induction xs generalizing s with
  | nil => exact refl _
  | cons x xs ih =>
    rw [List.foldlM_cons, List.foldlM_cons]
    exact (h s x).bind ih

theorem foldTuples {f g : σ → List α → Except ε σ}
    (h : ∀ s xs, AnswersOr refusal (f s xs) (g s xs)) (s : σ) (domains : List (List α)) :
    AnswersOr refusal (foldTuples f s domains) (foldTuples g s domains) := by
  rw [foldTuples_eq, foldTuples_eq]
  exact foldlM h _ s

end AnswersOr

/-! ## Comparing grounders -/

/-- The errors by which the grounder `G` refuses a problem that the grounder `H` may ground. Each
is due to a setting of `G` that `H` does not share. -/
inductive Grounder.Refusal (H G : Grounder) (P : Problem) : GroundingError → Prop where
  | unsupported (differ : G.supported ≠ H.supported) :
    Refusal H G P (.unsupportedFeature engineName (G.capabilities.missing P.kind))
  | limit (n : Nat) (limit : G.options.maxGroundActions = some n)
      (differ : H.options.maxGroundActions ≠ some n) :
    Refusal H G P (.tooManyGroundActions P.name n)
  | cancelled (cancelled : G.cancelled = true) (differ : H.cancelled = false) :
    Refusal H G P .cancelled

namespace Grounder

variable {H G : Grounder} {P : Problem}

/-- Without a setting that differs there is nothing to refuse for. -/
theorem not_refusal (hsupported : G.supported = H.supported)
    (hlimit : G.options.maxGroundActions = H.options.maxGroundActions)
    (hcancelled : G.cancelled = H.cancelled) (e : GroundingError) : ¬ Refusal H G P e := by
  intro h
  cases h with
  | unsupported differ => exact differ hsupported
  | limit n hn differ => exact differ (hlimit ▸ hn)
  | cancelled hc differ => exact absurd (hcancelled ▸ hc) (by rw [differ]; decide)

theorem groundArgs_answersOr (facts : Option StaticFacts) (a : Action) (g : Grounding)
    (args : List String) :
    AnswersOr (Refusal H G P) (H.groundArgs P facts a g args) (G.groundArgs P facts a g args) := by
  unfold groundArgs
  cases hH : H.cancelled with
  | true => exact .of_error
  | false =>
    cases hG : G.cancelled with
    | true => exact .refuse (.cancelled hG hH)
    | false =>
      refine (AnswersOr.refl _).bind fun ground => ?_
      cases ground with
      | none => exact .refl _
      | some ground =>
        -- a limit that is reached refuses only the grounder that has it
        dsimp only
        cases hm : H.options.maxGroundActions.filter fun n => n ≤ g.names.size with
        | some m => exact .of_error
        | none =>
          cases hn : G.options.maxGroundActions.filter fun n => n ≤ g.names.size with
          | none => exact .refl _
          | some n =>
            obtain ⟨hlimit, _⟩ := Option.filter_eq_some_iff.mp hn
            refine .refuse (.limit n hlimit fun hsame => ?_)
            rw [hsame, ← hlimit, hn] at hm
            cases hm

theorem groundSchema_answersOr (facts : Option StaticFacts) (g : Grounding) (a : Action) :
    AnswersOr (Refusal H G P) (H.groundSchema P facts g a) (G.groundSchema P facts g a) :=
  (AnswersOr.refl _).bind fun domains =>
    .foldTuples (fun g args => groundArgs_answersOr facts a g args) g domains

theorem groundProblem_answersOr (hprune : G.options.pruneStatic = H.options.pruneStatic) :
    AnswersOr (Refusal H G P) (H.groundProblem P) (G.groundProblem P) := by
  unfold groundProblem
  rw [hprune]
  have hmade (facts : Option StaticFacts) := AnswersOr.foldlM
    (fun g a => groundSchema_answersOr (H := H) (G := G) (P := P) facts g a) P.actions .empty
  exact (hmade _).bind fun made => .refl _

theorem ground_answersOr (hprune : G.options.pruneStatic = H.options.pruneStatic) :
    AnswersOr (Refusal H G P) (H.ground P) (G.ground P) := by
  unfold ground
  cases hH : H.capabilities.missing P.kind with
  | cons f fs => exact .of_error
  | nil =>
    cases hG : G.capabilities.missing P.kind with
    | nil => exact groundProblem_answersOr hprune
    | cons f fs =>
      have hdiffer : G.supported ≠ H.supported := by
        intro hsame
        have hmissing : G.capabilities.missing P.kind = H.capabilities.missing P.kind := by
          rw [capabilities, capabilities, hsame]
        rw [hmissing, hH] at hG
        cases hG
      have hrefusal := Refusal.unsupported (P := P) hdiffer
      rw [hG] at hrefusal
      exact .refuse hrefusal

/-- Two grounders that agree on pruning compile a problem to the same result, or the second one
refuses it for a setting of its own. -/
theorem compile_answersOr (hprune : G.options.pruneStatic = H.options.pruneStatic)
    (kind : CompilationKind) :
    AnswersOr (Refusal H G P) (H.compile P kind) (G.compile P kind) := by
  unfold compile
  have hoffers : G.capabilities.offers kind = H.capabilities.offers kind := rfl
  rw [hoffers]
  split
  · exact ground_answersOr hprune
  · exact .of_error

end Grounder

end LiftedPlanning
