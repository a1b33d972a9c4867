import Std.Data.TreeSet

/-!
# Fresh names

A ground action is named after its lifted action and the arguments, joined by underscores. Two
actions can come to the same name, and then the later one gets a number. The candidates for a name
are pairwise distinct, so one more of them than there are names in use is enough to find a fresh
one (`fresh_notMem`).
-/

namespace LiftedPlanning.FreshName

/-- The name itself, then the name with 1, 2, … after an underscore. -/
def candidate (base : String) : Nat → String
  | 0 => base
  | n + 1 => base ++ "_" ++ toString (n + 1)

/-- The first candidate from the `i`-th on that is not in use; `tries` bounds how many are looked
at. -/
def findFrom (used : Std.TreeSet String) (base : String) (i : Nat) : Nat → String
  | 0 => candidate base i
  | tries + 1 =>
    if used.contains (candidate base i) then findFrom used base (i + 1) tries
    else candidate base i

def fresh (used : Std.TreeSet String) (base : String) : String := findFrom used base 0 used.size

/-! ## Candidates are distinct -/

theorem ne_append_suffix (base s : String) : base ≠ base ++ ("_" ++ s) := by
  intro h
  have := congrArg String.length h
  simp [String.length_append] at this

theorem repr_inj {i j : Nat} (h : i.repr = j.repr) : i = j := by
  have h : Nat.toDigits 10 i = Nat.toDigits 10 j := String.ofList_injective h
  simpa using congrArg (Nat.ofDigitChars 10 · 0) h

theorem candidate_inj {base : String} {i j : Nat} (h : candidate base i = candidate base j) :
    i = j := by
  match i, j with
  | 0, 0 => rfl
  | 0, j + 1 =>
    rw [candidate, candidate, String.append_assoc] at h
    exact absurd h (ne_append_suffix base _)
  | i + 1, 0 =>
    rw [candidate, candidate, String.append_assoc] at h
    exact absurd h.symm (ne_append_suffix base _)
  | i + 1, j + 1 =>
    rw [candidate, candidate, String.append_right_inj] at h
    exact repr_inj h

/-! ## Fresh names are not in use -/

theorem findFrom_notMem {used : Std.TreeSet String} {base : String} {i tries : Nat}
    (h : ∃ k, i ≤ k ∧ k ≤ i + tries ∧ candidate base k ∉ used) :
    findFrom used base i tries ∉ used := by
  induction tries generalizing i with
  | zero =>
    obtain ⟨k, h₁, h₂, hk⟩ := h
    obtain rfl : k = i := by omega
    exact hk
  | succ tries ih =>
    obtain ⟨k, h₁, h₂, hk⟩ := h
    rw [findFrom]
    split
    · next hi =>
      -- the candidate that is not in use is still ahead
      have hki : k ≠ i := by
        intro h
        subst h
        exact hk (Std.TreeSet.mem_iff_contains.mpr hi)
      exact ih ⟨k, by omega, by omega, hk⟩
    · next hi => exact fun hmem => hi (Std.TreeSet.mem_iff_contains.mp hmem)

/-- Some candidate among the first `used.size + 1` is not in use. -/
theorem exists_candidate_notMem (used : Std.TreeSet String) (base : String) :
    ∃ k ≤ used.size, candidate base k ∉ used := by
  apply Classical.byContradiction
  intro hnone
  have hsub : (List.range (used.size + 1)).map (candidate base) ⊆ used.toList := by
    intro s hs
    obtain ⟨k, hk, rfl⟩ := List.mem_map.mp hs
    apply Classical.byContradiction
    intro hn
    exact hnone ⟨k, Nat.le_of_lt_succ (List.mem_range.mp hk),
      fun hmem => hn (Std.TreeSet.mem_toList.mpr hmem)⟩
  have hnodup : ((List.range (used.size + 1)).map (candidate base)).Nodup :=
    List.Pairwise.map _ (fun _ _ hij h => hij (candidate_inj h)) List.nodup_range
  have hlen := List.Nodup.length_le_of_subset hnodup hsub
  rw [List.length_map, List.length_range, Std.TreeSet.length_toList] at hlen
  omega

theorem fresh_notMem (used : Std.TreeSet String) (base : String) : fresh used base ∉ used := by
  obtain ⟨k, hk, hn⟩ := exists_candidate_notMem used base
  exact findFrom_notMem ⟨k, Nat.zero_le k, by omega, hn⟩

/-! ## Fresh names are the first candidates that are left -/

/-- Every candidate that was passed over is in use. -/
theorem findFrom_eq_candidate (used : Std.TreeSet String) (base : String) (i tries : Nat) :
    ∃ k, i ≤ k ∧ k ≤ i + tries ∧ findFrom used base i tries = candidate base k ∧
      ∀ j, i ≤ j → j < k → candidate base j ∈ used := by
  induction tries generalizing i with
  | zero => exact ⟨i, Nat.le_refl i, Nat.le_refl i, rfl, fun j hij hji => by omega⟩
  | succ tries ih =>
    rw [findFrom]
    split
    · next hi =>
      obtain ⟨k, hik, hk, heq, hpassed⟩ := ih (i + 1)
      refine ⟨k, by omega, by omega, heq, fun j hij hjk => ?_⟩
      rcases Nat.eq_or_lt_of_le hij with rfl | hij
      · exact Std.TreeSet.mem_iff_contains.mpr hi
      · exact hpassed j hij hjk
    · exact ⟨i, Nat.le_refl i, by omega, rfl, fun j hij hji => by omega⟩

/-- The search for a fresh name ends, after no more steps than there are names in use, and it ends
at the first candidate that is left. -/
theorem fresh_eq_candidate (used : Std.TreeSet String) (base : String) :
    ∃ k ≤ used.size, fresh used base = candidate base k ∧ candidate base k ∉ used ∧
      ∀ j < k, candidate base j ∈ used := by
  obtain ⟨k, _, hk, heq, hpassed⟩ := findFrom_eq_candidate used base 0 used.size
  have heq : fresh used base = candidate base k := heq
  exact ⟨k, by omega, heq, heq ▸ fresh_notMem used base, fun j hj => hpassed j (Nat.zero_le j) hj⟩

end LiftedPlanning.FreshName
