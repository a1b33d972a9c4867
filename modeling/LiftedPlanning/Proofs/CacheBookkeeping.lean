import LiftedPlanning.Proofs.CacheRuns
import Mathlib.Data.Finset.Card
import Mathlib.Data.Finset.Dedup

/-!
# Bookkeeping of the grounding cache

What the counters of a cache and its size say of the run behind it (`GroundingCache.bookkeeping`).
A run is taken apart into calls, each of them a request with the cache that it finds. What one
request adds to a number is added up over the calls of a run once and for all
(`GroundingCache.add_countP_of_step`).
-/

namespace LiftedPlanning

namespace CacheRequest

/-- A new answer to the request, made without looking it up. -/
def compiled (q : CacheRequest) : Except GroundingError (Identified CompilerResult) :=
  (q.compiler.compile q.problem.content .grounding).map fun r => ⟨q.id, r⟩

theorem compiled_grounder (G : Grounder) (P : Problem) (n id : ℕ) :
    compiled ⟨G.toCompiler, ⟨n, P⟩, id⟩ = (G.ground P).map fun r => ⟨id, r⟩ :=
  rfl

end CacheRequest

/-- A request with the cache that it finds. -/
structure CacheCall where
  cache : GroundingCache
  request : CacheRequest

namespace CacheCall

def missed (k : CacheCall) : Bool := (k.cache.find? k.request.key).isNone

def compiles (k : CacheCall) : Bool := k.request.compiled.isOk

def answered (k : CacheCall) : Bool := (k.cache.answer k.request).isOk

end CacheCall

namespace GroundingCache

def calls (c : GroundingCache) : List CacheRequest → List CacheCall
  | [] => []
  | q :: qs => ⟨c, q⟩ :: (c.serve q).calls qs

def keys (c : GroundingCache) : List CacheKey := c.entries.map Prod.fst

/-- The keys that a run gets a grounding for. A key is listed as often as it is answered. -/
def answeredKeys (c : GroundingCache) (qs : List CacheRequest) : List CacheKey :=
  ((c.calls qs).filter CacheCall.answered).map fun k => k.request.key

variable {c : GroundingCache} {q q' : CacheRequest} {r : Identified CompilerResult}
  {e : GroundingError} {key : CacheKey}

theorem length_calls (c : GroundingCache) (qs : List CacheRequest) :
    (c.calls qs).length = qs.length := by
  induction qs generalizing c with
  | nil => rfl
  | cons q qs ih => exact congrArg Nat.succ (ih _)

theorem find?_eq_none_iff : c.find? key = none ↔ key ∉ c.keys := by
  rw [find?, Option.map_eq_none_iff, List.find?_eq_none, keys, List.mem_map]
  simp only [decide_eq_true_eq, not_exists, not_and]

/-! ## What one request does -/

/-- A request that finds its key is a hit. -/
theorem serve_of_find? (h : c.find? q.key = some r) :
    c.serve q = { c with hits := c.hits + 1 } ∧ c.answer q = .ok r := by
  rw [serve, answer, request_of_find? h]
  exact ⟨rfl, rfl⟩

/-- A request that does not is a miss, and its answer is made anew. -/
theorem serve_of_find?_eq_none (h : c.find? q.key = none) :
    c.answer q = q.compiled ∧ (c.serve q).misses = c.misses + 1 ∧ (c.serve q).hits = c.hits ∧
      (c.serve q).entries = (q.compiled.toOption.map (q.key, ·)).toList ++ c.entries := by
  rw [answer, serve, CacheRequest.compiled]
  rcases request_cases c q with ⟨r, hr, _⟩ | ⟨r, _, hmade, hrequest⟩ | ⟨e, _, hmade, hrequest⟩
  · cases hr.symm.trans h
  · rw [hrequest, hmade]
    exact ⟨rfl, rfl, rfl, rfl⟩
  · rw [hrequest, hmade]
    exact ⟨rfl, rfl, rfl, rfl⟩

/-- Only a miss fails, and nothing is remembered of it. -/
theorem serve_of_answer_eq_error (h : c.answer q = .error e) :
    c.find? q.key = none ∧ q.compiled = .error e ∧
      c.serve q = { c with misses := c.misses + 1 } := by
  rw [answer] at h
  rw [serve, CacheRequest.compiled]
  rcases request_cases c q with ⟨r, _, hrequest⟩ | ⟨r, _, _, hrequest⟩ | ⟨_, hnone, hmade, hrequest⟩
  · rw [hrequest] at h
    cases h
  · rw [hrequest] at h
    cases h
  · rw [hrequest] at h ⊢
    cases h
    rw [hmade]
    exact ⟨hnone, rfl, rfl⟩

theorem hits_add_misses_serve (c : GroundingCache) (q : CacheRequest) :
    (c.serve q).hits + (c.serve q).misses = c.hits + c.misses + 1 := by
  cases hfind : c.find? q.key with
  | some r =>
    rw [(serve_of_find? hfind).1]
    exact Nat.add_right_comm _ _ _
  | none =>
    obtain ⟨_, hmisses, hhits, _⟩ := serve_of_find?_eq_none hfind
    rw [hmisses, hhits, Nat.add_assoc]

theorem misses_serve (c : GroundingCache) (q : CacheRequest) :
    (c.serve q).misses = c.misses + if CacheCall.missed ⟨c, q⟩ then 1 else 0 := by
  rw [CacheCall.missed]
  cases hfind : c.find? q.key with
  | some r =>
    rw [(serve_of_find? hfind).1]
    rfl
  | none => exact (serve_of_find?_eq_none hfind).2.1

theorem size_serve (c : GroundingCache) (q : CacheRequest) :
    (c.serve q).size =
      c.size + if CacheCall.missed ⟨c, q⟩ && CacheCall.compiles ⟨c, q⟩ then 1 else 0 := by
  rw [CacheCall.missed, CacheCall.compiles]
  cases hfind : c.find? q.key with
  | some r =>
    rw [(serve_of_find? hfind).1]
    rfl
  | none =>
    rw [size, (serve_of_find?_eq_none hfind).2.2.2]
    cases q.compiled with
    | ok r => rfl
    | error e => rfl

theorem nodup_keys_serve (h : c.keys.Nodup) (q : CacheRequest) : (c.serve q).keys.Nodup := by
  cases hfind : c.find? q.key with
  | some r =>
    rw [(serve_of_find? hfind).1]
    exact h
  | none =>
    rw [keys, (serve_of_find?_eq_none hfind).2.2.2]
    cases q.compiled with
    | ok r => exact List.nodup_cons.mpr ⟨find?_eq_none_iff.mp hfind, h⟩
    | error e => exact h

/-- A request adds its key to the remembered ones if it is answered. If that was a hit, the key was
one of them. -/
theorem mem_keys_serve (c : GroundingCache) (q : CacheRequest) :
    key ∈ (c.serve q).keys ↔ CacheCall.answered ⟨c, q⟩ ∧ key = q.key ∨ key ∈ c.keys := by
  rw [CacheCall.answered]
  cases hfind : c.find? q.key with
  | some r =>
    obtain ⟨hserve, hanswer⟩ := serve_of_find? hfind
    have hmem : q.key ∈ c.keys := List.mem_map_of_mem (mem_of_find? hfind)
    rw [hserve, hanswer]
    exact (or_iff_right_of_imp fun h => h.2 ▸ hmem).symm
  | none =>
    obtain ⟨hanswer, _, _, hentries⟩ := serve_of_find?_eq_none hfind
    rw [keys, hentries, hanswer]
    cases q.compiled with
    | ok r => simp [keys, Except.toOption, Except.isOk, Except.toBool]
    | error e => simp [keys, Except.toOption, Except.isOk, Except.toBool]

theorem find?_serve_of_ne (h : c.find? q.key = none) (hne : q'.key ≠ q.key) :
    (c.serve q').find? q.key = none := by
  rw [find?_eq_none_iff, mem_keys_serve]
  rintro (⟨_, heq⟩ | hmem)
  · exact hne heq.symm
  · exact find?_eq_none_iff.mp h hmem

/-! ## What a run does -/

/-- A number to which each call adds one if it passes a test has grown by the number of calls that
pass it. -/
theorem add_countP_of_step (f : GroundingCache → Nat) (p : CacheCall → Bool)
    (hstep : ∀ c q, f (c.serve q) = f c + if p ⟨c, q⟩ then 1 else 0) (c : GroundingCache)
    (qs : List CacheRequest) : f (qs.foldl serve c) = f c + (c.calls qs).countP p := by
  induction qs generalizing c with
  | nil => rfl
  | cons q qs ih =>
    rw [List.foldl_cons, ih, hstep, calls, List.countP_cons, Nat.add_assoc,
      Nat.add_comm (List.countP _ _)]

theorem nodup_keys_foldl_serve (h : c.keys.Nodup) (qs : List CacheRequest) :
    (qs.foldl serve c).keys.Nodup := by
  induction qs generalizing c with
  | nil => exact h
  | cons q qs ih => exact ih (nodup_keys_serve h q)

theorem mem_keys_foldl_serve (c : GroundingCache) (qs : List CacheRequest) :
    key ∈ (qs.foldl serve c).keys ↔ key ∈ c.answeredKeys qs ∨ key ∈ c.keys := by
  induction qs generalizing c with
  | nil => simp [answeredKeys, calls]
  | cons q qs ih =>
    rw [List.foldl_cons, ih, mem_keys_serve, answeredKeys, answeredKeys, calls, List.filter_cons]
    cases CacheCall.answered ⟨c, q⟩ with
    | true => simp [or_left_comm, or_assoc]
    | false => simp

theorem find?_foldl_serve_of_ne (h : c.find? q.key = none) {qs : List CacheRequest}
    (hne : ∀ p ∈ qs, p.key ≠ q.key) : (qs.foldl serve c).find? q.key = none := by
  induction qs generalizing c with
  | nil => exact h
  | cons p qs ih =>
    rw [List.forall_mem_cons] at hne
    exact ih (find?_serve_of_ne h hne.1) hne.2

/-- What failed once is not found by the next request with the same key. -/
theorem find?_after_error (h : c.answer q = .error e) {qs : List CacheRequest}
    (hne : ∀ p ∈ qs, p.key ≠ q.key) (hkey : q'.key = q.key) :
    ((q :: qs).foldl serve c).find? q'.key = none := by
  obtain ⟨hnone, _, hserve⟩ := serve_of_answer_eq_error h
  have hafter : (c.serve q).find? q.key = none := by
    rw [hserve]
    exact hnone
  rw [hkey]
  exact find?_foldl_serve_of_ne hafter hne

/-- The size of the cache is the number of different keys that were answered. -/
theorem size_afterAll (qs : List CacheRequest) :
    (afterAll qs).size = (empty.answeredKeys qs).toFinset.card := by
  have hnodup : (afterAll qs).keys.Nodup := nodup_keys_foldl_serve (c := empty) List.nodup_nil qs
  have hkeys : (afterAll qs).keys.toFinset = (empty.answeredKeys qs).toFinset := by
    ext key
    rw [List.mem_toFinset, List.mem_toFinset, afterAll, mem_keys_foldl_serve]
    exact or_iff_left List.not_mem_nil
  rw [← hkeys, List.toFinset_card_of_nodup hnodup, keys, List.length_map, size]

open Examples

/-- The books of a cache after a run. Each request was a hit or a miss. As many groundings are
remembered as misses were compiled without failure, which is one for each key that was ever
answered. A request that failed was a miss and changed nothing else, so the next request with its
key is a miss as well and compiles again. A request that was answered is answered in the same way
ever after: every request with its key is a hit. -/
theorem bookkeeping (qs : List CacheRequest) :
    (afterAll qs).hits + (afterAll qs).misses = qs.length ∧
      (afterAll qs).misses = (empty.calls qs).countP CacheCall.missed ∧
      (afterAll qs).size = (empty.calls qs).countP (fun k => k.missed && k.compiles) ∧
      (afterAll qs).size = (empty.answeredKeys qs).toFinset.card ∧
      ∀ past q rest, qs = past ++ q :: rest →
        (∀ e, (afterAll past).answer q = .error e →
          (afterAll past).serve q =
            { afterAll past with misses := (afterAll past).misses + 1 } ∧
          ((∀ p ∈ rest, p.key ≠ q.key) → ∀ q' : CacheRequest, q'.key = q.key →
            (afterAll qs).answer q' = q'.compiled ∧
              ((afterAll qs).serve q').misses = (afterAll qs).misses + 1 ∧
              ((afterAll qs).serve q').hits = (afterAll qs).hits)) ∧
        ∀ r, (afterAll past).answer q = .ok r → ∀ q' : CacheRequest, q'.key = q.key →
          (afterAll qs).answer q' = .ok r ∧
            (afterAll qs).serve q' = { afterAll qs with hits := (afterAll qs).hits + 1 } := by
  refine ⟨?_, ?_, ?_, size_afterAll qs, ?_⟩
  · have hcount := add_countP_of_step (fun c => c.hits + c.misses) (fun _ => true)
      hits_add_misses_serve empty qs
    rw [List.countP_true, length_calls] at hcount
    exact hcount.trans (Nat.zero_add _)
  · exact (add_countP_of_step misses CacheCall.missed misses_serve empty qs).trans
      (Nat.zero_add _)
  · exact (add_countP_of_step size (fun k => k.missed && k.compiles) size_serve empty qs).trans
      (Nat.zero_add _)
  rintro past q rest rfl
  rw [afterAll_append]
  refine ⟨fun e he => ⟨(serve_of_answer_eq_error he).2.2, fun hne q' hkey => ?_⟩,
    fun r hr q' hkey => ?_⟩
  · obtain ⟨hanswer, hmisses, hhits, _⟩ := serve_of_find?_eq_none (find?_after_error he hne hkey)
    exact ⟨hanswer, hmisses, hhits⟩
  · have hagain := request_again hr rest hkey
    exact ⟨congrArg Prod.snd hagain, congrArg Prod.fst hagain⟩

/-- A cancelled grounder fails on the roads, the next one grounds them, and from then on the first
one is answered as well. -/
theorem bookkeeping_roads :
    let cancelled : CacheRequest := ⟨(Grounder.mk {} .all true).toCompiler, ⟨0, roads⟩, 1⟩
    let granted : CacheRequest := ⟨(grounder true).toCompiler, ⟨0, roads⟩, 2⟩
    (afterAll [cancelled]).size = 0 ∧
      (afterAll [cancelled]).answer granted = .ok ⟨2, groundRoads true⟩ ∧
      (afterAll [cancelled, granted]).misses = 2 ∧
      (afterAll [cancelled, granted]).answer cancelled = .ok ⟨2, groundRoads true⟩ ∧
      (afterAll [cancelled, granted, cancelled]).hits = 1 := by
  intro cancelled granted
  have hkey : granted.key = cancelled.key := CacheRequest.key_congr rfl rfl
  have hstopped : (Grounder.mk {} .all true).ground roads = .error .cancelled := by
    decide +kernel
  have hfailed : empty.answer cancelled = .error .cancelled := by
    rw [(serve_of_find?_eq_none rfl).1, CacheRequest.compiled_grounder, hstopped]
    rfl
  have hmade : granted.compiled = .ok ⟨2, groundRoads true⟩ := by
    rw [CacheRequest.compiled_grounder, ground_roads]
    rfl
  obtain ⟨_, _, _, _, hfirst⟩ := bookkeeping [cancelled]
  obtain ⟨hserve, hnext⟩ := (hfirst [] cancelled [] rfl).1 _ hfailed
  obtain ⟨hanswer, hmisses, hhits⟩ := hnext (List.forall_mem_nil _) granted hkey
  obtain ⟨_, _, _, _, hsecond⟩ := bookkeeping [cancelled, granted]
  obtain ⟨hagain, hhit⟩ :=
    (hsecond [cancelled] granted [] rfl).2 _ (hanswer.trans hmade) cancelled hkey.symm
  have hone : afterAll [cancelled] = ⟨[], 0, 1⟩ := (afterAll_concat [] cancelled).trans hserve
  have htwo : afterAll [cancelled, granted] = (afterAll [cancelled]).serve granted :=
    afterAll_concat [cancelled] granted
  have hthree : afterAll [cancelled, granted, cancelled] =
      (afterAll [cancelled, granted]).serve cancelled :=
    afterAll_concat [cancelled, granted] cancelled
  refine ⟨by rw [hone]; rfl, hanswer.trans hmade, ?_, hagain, ?_⟩
  · rw [htwo, hmisses, hone]
  · rw [hthree, hhit, htwo, hhits, hone]

end GroundingCache

end LiftedPlanning
