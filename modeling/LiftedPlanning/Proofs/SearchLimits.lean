import LiftedPlanning.Proofs.SearchOutcome

/-!
# Limits of a search

A limit on expansions cuts a search off and has no other say in it. Two searches with different
limits take the same steps from frontier to frontier (`BreadthFirstPlanner.Advances`) until the
lower limit is reached. If the search with the lower limit has ended before that, the other one has
ended in the same way (`BreadthFirstPlanner.explore_of_finished`). If it has not, the other one goes
on from the frontier at which it was cut off (`BreadthFirstPlanner.Advances.explore_add`), and
counts on from there.
-/

namespace LiftedPlanning

def Expansion.generated : Expansion → ℕ
  | reached _ generated => generated
  | searching f => f.generated

namespace BreadthFirstPlanner

variable {P : Problem} {cs : List Candidate} {f f' : Frontier} {n : SearchNode}
  {expansions m : ℕ}

/-! ## Steps from frontier to frontier -/

theorem generated_le_of_visit {e : Expansion} (h : visit P f n = .ok e) :
    f.generated ≤ e.generated := by
  unfold visit at h
  split at h
  · cases h
    exact Nat.le_succ _
  · obtain ⟨c, _, h⟩ := bind_eq_ok.mp h
    cases c <;> cases h <;> exact Nat.le_succ _

theorem generated_le_of_expand {e : Expansion} (h : expand P n cs f = .ok e) :
    f.generated ≤ e.generated := by
  induction cs generalizing f with
  | nil =>
    cases h
    exact le_rfl
  | cons c cs ih =>
    rw [expand] at h
    obtain ⟨t, _, h⟩ := bind_eq_ok.mp h
    cases t with
    | none => exact ih h
    | some t =>
      obtain ⟨e', he', h⟩ := bind_eq_ok.mp h
      have hle := generated_le_of_visit he'
      cases e' with
      | reached n' generated =>
        cases h
        exact hle
      | searching f' => exact hle.trans (ih h)

/-- The search comes from one frontier to another by so many expansions. -/
inductive Advances (P : Problem) (cs : List Candidate) : ℕ → Frontier → Frontier → Prop where
  | nil {f : Frontier} : Advances P cs 0 f f
  | cons {m : ℕ} {f f₁ f' : Frontier} {n : SearchNode} {queue : Queue SearchNode} :
      f.queue.pop? = some (n, queue) →
      expand P n cs { f with queue := queue } = .ok (.searching f₁) → Advances P cs m f₁ f' →
      Advances P cs (m + 1) f f'

theorem Advances.generated_le (h : Advances P cs m f f') : f.generated ≤ f'.generated := by
  induction h with
  | nil => exact le_rfl
  | cons _ hexpand _ ih => exact (generated_le_of_expand hexpand).trans ih

/-- What is left of the limit is spent from the frontier that was reached. -/
theorem Advances.explore_add (h : Advances P cs m f f') (expansions d : ℕ) :
    explore P cs expansions f (m + d) = explore P cs (expansions + m) f' d := by
  induction h generalizing expansions with
  | nil => rw [Nat.zero_add, Nat.add_zero]
  | @cons m f f₁ f' n queue hpop hexpand _ ih =>
    rw [Nat.succ_add, explore, hpop]
    dsimp only
    rw [hexpand]
    exact (ih (expansions + 1)).trans (by rw [Nat.succ_add, Nat.add_succ])

/-- A search that counts from a frontier does not count less than was counted there. -/
theorem Explores.generated_le {remaining : ℕ} {r : PlanResult}
    (h : Explores P cs expansions f remaining r) : f.generated ≤ r.generated := by
  induction h with
  | exhausted _ => exact le_rfl
  | limit _ => exact le_rfl
  | reached _ hexpand => exact generated_le_of_expand hexpand
  | searching _ hexpand _ ih => exact (generated_le_of_expand hexpand).trans ih

/-! ## Ending and being cut off -/

/-- The search was not cut off by its limit. -/
def Finished (x : Except ModelError PlanResult) : Prop := ∀ r, x = .ok r → r.status ≠ .limitReached

theorem explore_of_empty (hpop : f.queue.pop? = none) (expansions remaining : ℕ) :
    explore P cs expansions f remaining = .ok (unsolved .unsolvable expansions f.generated) := by
  cases remaining <;> rw [explore, hpop]

/-- A search that has ended by itself would not have gone on. -/
theorem explore_of_finished (h : Finished (explore P cs expansions f m)) (d : ℕ) :
    explore P cs expansions f (m + d) = explore P cs expansions f m := by
  induction m generalizing expansions f with
  | zero =>
    cases hpop : f.queue.pop? with
    | none => rw [explore_of_empty hpop, explore_of_empty hpop]
    | some x =>
      rw [explore, hpop] at h
      exact absurd rfl (h _ rfl)
  | succ m ih =>
    cases hpop : f.queue.pop? with
    | none => rw [explore_of_empty hpop, explore_of_empty hpop]
    | some x =>
      rw [explore, hpop] at h
      rw [Nat.succ_add, explore, explore, hpop]
      dsimp only at h ⊢
      cases hexpand : expand P x.1 cs { f with queue := x.2 } with
      | error e => rfl
      | ok e =>
        rw [hexpand] at h
        cases e with
        | reached n' generated => rfl
        | searching f₁ => exact ih h

/-- A search that was cut off has come to a frontier by as many expansions as it had. -/
theorem Explores.advances_of_limit {r : PlanResult} (h : Explores P cs expansions f m r)
    (hr : r.status = .limitReached) :
    ∃ f', Advances P cs m f f' ∧ r = unsolved .limitReached (expansions + m) f'.generated := by
  induction h with
  | exhausted _ => cases hr
  | limit _ => exact ⟨_, .nil, rfl⟩
  | reached _ _ => cases hr
  | @searching expansions m f f₁ n queue r hpop hexpand _ ih =>
    obtain ⟨f', hadvances, rfl⟩ := ih hr
    refine ⟨f', .cons hpop hexpand hadvances, ?_⟩
    rw [Nat.add_assoc, Nat.add_comm 1]

/-! ## Searches under different limits -/

/-- Without cancellation a search either ends before its first expansion, whatever its limit is, or
explores from the initial state. -/
theorem solve_eq_or_explore (P : Problem) :
    (∃ x, Finished x ∧ ∀ p : BreadthFirstPlanner, p.cancelled = false → p.solve P = x) ∨
      ∃ cs, ∀ p : BreadthFirstPlanner, p.cancelled = false →
        p.solve P = explore P cs 0 (start P.initialState) p.options.maxExpansions := by
  cases hcs : candidates P with
  | error e =>
    refine .inl ⟨.error e, nofun, fun p _ => ?_⟩
    rw [solve, hcs]
    rfl
  | ok cs =>
    cases hgoals : P.firstUnreachedGoal P.initialState with
    | error e =>
      refine .inl ⟨.error e, nofun, fun p _ => ?_⟩
      rw [solve, hcs, hgoals]
      rfl
    | ok c =>
      cases c with
      | none =>
        refine .inl ⟨.ok ⟨.solved, some [], engineName, 0, 0⟩, ?_, fun p _ => ?_⟩
        · rintro _ ⟨⟩ ⟨⟩
        · rw [solve, hcs, hgoals]
          rfl
      | some c =>
        refine .inr ⟨cs, fun p hp => ?_⟩
        rw [solve, hcs, hgoals, hp]
        rfl

open Examples

/-- A search that ends by itself, with an answer or an error, ends alike under any higher limit. One
that reaches its limit has made as many expansions as that and has no plan, and under a higher limit
no fewer steps lead to states. -/
theorem solve_of_higher_limit {p q : BreadthFirstPlanner} (hp : p.cancelled = false)
    (hq : q.cancelled = false) (hlimit : p.options.maxExpansions ≤ q.options.maxExpansions) :
    (∀ e, p.solve P = .error e → q.solve P = .error e) ∧
      (∀ r, p.solve P = .ok r → r.status = .solved ∨ r.status = .unsolvable →
        q.solve P = .ok r) ∧
      ∀ r, p.solve P = .ok r → r.status = .limitReached →
        r.expansions = p.options.maxExpansions ∧ r.plan = none ∧
          ∀ r', q.solve P = .ok r' → r.generated ≤ r'.generated := by
  obtain ⟨d, hd⟩ := Nat.exists_eq_add_of_le hlimit
  have hfinished : ∀ x, p.solve P = x → Finished x → q.solve P = x := by
    rintro x hx hfin
    rcases solve_eq_or_explore P with ⟨y, _, hy⟩ | ⟨cs, hcs⟩
    · rw [hy q hq, ← hy p hp, hx]
    · rw [hcs p hp] at hx
      rw [hcs q hq, hd, explore_of_finished (hx ▸ hfin), hx]
  refine ⟨fun e he => hfinished _ he nofun, fun r hr hstatus => hfinished _ hr ?_, ?_⟩
  · rintro _ ⟨⟩ hcut
    rw [hcut] at hstatus
    exact hstatus.elim nofun nofun
  · intro r hr hcut
    rcases solve_eq_or_explore P with ⟨x, hx, hsolve⟩ | ⟨cs, hcs⟩
    · exact absurd hcut (hx r ((hsolve p hp).symm.trans hr))
    · have hr := explores_of_explore ((hcs p hp).symm.trans hr)
      obtain ⟨f, hadvances, rfl⟩ := hr.advances_of_limit hcut
      refine ⟨Nat.zero_add _, rfl, fun r' hr' => ?_⟩
      -- the search with the higher limit goes on where the other one was cut off
      rw [hcs q hq, hd, hadvances.explore_add] at hr'
      exact (explores_of_explore hr').generated_le

theorem solve_of_higher_limit_forks :
    solve ⟨⟨7⟩, false⟩ (forks "d") = .ok ⟨.solved, some forkPlan, "breadth-first", 2, 3⟩ ∧
      ∀ r, solve ⟨⟨7⟩, false⟩ (forks "d") = .ok r → 2 ≤ r.generated := by
  have hcut : solve ⟨⟨1⟩, false⟩ (forks "d") =
      .ok ⟨.limitReached, none, "breadth-first", 1, 2⟩ := by decide +kernel
  have hsolved : solve ⟨⟨2⟩, false⟩ (forks "d") =
      .ok ⟨.solved, some forkPlan, "breadth-first", 2, 3⟩ := by decide +kernel
  have hone : (1 : ℕ) ≤ 7 := by decide
  have htwo : (2 : ℕ) ≤ 7 := by decide
  obtain ⟨_, _, hgrows⟩ := solve_of_higher_limit (P := forks "d") (p := ⟨⟨1⟩, false⟩)
    (q := ⟨⟨7⟩, false⟩) rfl rfl hone
  obtain ⟨_, hsame, _⟩ := solve_of_higher_limit (P := forks "d") (p := ⟨⟨2⟩, false⟩)
    (q := ⟨⟨7⟩, false⟩) rfl rfl htwo
  exact ⟨hsame _ hsolved (.inl rfl), (hgrows _ hcut rfl).2.2⟩

end BreadthFirstPlanner

end LiftedPlanning
