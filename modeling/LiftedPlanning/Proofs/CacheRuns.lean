import LiftedPlanning.Grounding.Cache
import LiftedPlanning.Proofs.GrounderSettings
import LiftedPlanning.Proofs.GroundProblem
import LiftedPlanning.Proofs.ProblemDocument
import Mathlib.Data.List.Induction

/-!
# Runs of the grounding cache

A cache is asked by any compilers, for problems that may have changed in between. What it remembers
are answers of compilers that were asked before (`GroundingCache.remembers_afterAll`). A key names
the compiler and the problem. As long as SHA-256 does not collide on the documents of the problems
it also fixes the content, but it says nothing of the settings of a compiler. So from the cache a
grounder gets the grounding by the first one that was asked for the same problem, which need not be
its own (`GroundingCache.cached_settings_differ`). It is its own as far as the settings agree
(`GroundingCache.answer_transparent`).
-/

namespace LiftedPlanning

/-- A request to a grounding cache: which compiler is to ground which problem, and the identity
that the result gets if it is new. -/
structure CacheRequest where
  compiler : Compiler
  problem : Identified Problem
  id : Nat

def CacheRequest.key (q : CacheRequest) : CacheKey := GroundingCache.keyOf q.compiler q.problem

theorem CacheRequest.key_congr {q q' : CacheRequest} (hname : q'.compiler.name = q.compiler.name)
    (hproblem : q'.problem = q.problem) : q'.key = q.key := by
  rw [key, key, GroundingCache.keyOf, GroundingCache.keyOf, hname, hproblem]

namespace GroundingCache

def answer (c : GroundingCache) (q : CacheRequest) :
    Except GroundingError (Identified CompilerResult) :=
  (c.request q.compiler q.problem q.id).2

def serve (c : GroundingCache) (q : CacheRequest) : GroundingCache :=
  (c.request q.compiler q.problem q.id).1

/-- The cache after some requests, the first of which finds it empty. -/
def afterAll (qs : List CacheRequest) : GroundingCache := qs.foldl serve empty

theorem afterAll_append (past qs : List CacheRequest) :
    afterAll (past ++ qs) = qs.foldl serve (afterAll past) :=
  List.foldl_append

theorem afterAll_concat (past : List CacheRequest) (q : CacheRequest) :
    afterAll (past ++ [q]) = (afterAll past).serve q :=
  List.foldl_concat ..

/-! ## What a request can do -/

variable {c : GroundingCache} {q q' : CacheRequest} {r : Identified CompilerResult}

theorem request_of_find? (h : c.find? q.key = some r) :
    c.request q.compiler q.problem q.id = ({ c with hits := c.hits + 1 }, .ok r) := by
  rw [CacheRequest.key] at h
  rw [request, h]

/-- A request is answered from the cache, or by a new grounding, or by a failure. -/
theorem request_cases (c : GroundingCache) (q : CacheRequest) :
    (∃ r, c.find? q.key = some r ∧
      c.request q.compiler q.problem q.id = ({ c with hits := c.hits + 1 }, .ok r)) ∨
    (∃ r, c.find? q.key = none ∧
      q.compiler.compile q.problem.content .grounding = .ok r ∧
      c.request q.compiler q.problem q.id =
        (⟨(q.key, ⟨q.id, r⟩) :: c.entries, c.hits, c.misses + 1⟩, .ok ⟨q.id, r⟩)) ∨
    ∃ e, c.find? q.key = none ∧
      q.compiler.compile q.problem.content .grounding = .error e ∧
      c.request q.compiler q.problem q.id = ({ c with misses := c.misses + 1 }, .error e) := by
  cases hfind : c.find? q.key with
  | some r => exact .inl ⟨r, rfl, request_of_find? hfind⟩
  | none =>
    rw [CacheRequest.key] at hfind ⊢
    rw [request, hfind]
    cases hcompile : q.compiler.compile q.problem.content .grounding with
    | ok r => exact .inr (.inl ⟨r, rfl, rfl, rfl⟩)
    | error e => exact .inr (.inr ⟨e, rfl, rfl, rfl⟩)

theorem mem_of_find? {key : CacheKey} (h : c.find? key = some r) : (key, r) ∈ c.entries := by
  obtain ⟨e, he, rfl⟩ := Option.map_eq_some_iff.mp h
  have hkey : e.1 = key := by simpa using List.find?_some he
  have hmem := List.mem_of_find?_eq_some he
  rwa [← hkey]

theorem answer_of_compile {s : CompilerResult} (hmiss : c.find? q.key = none)
    (h : q.compiler.compile q.problem.content .grounding = .ok s) : c.answer q = .ok ⟨q.id, s⟩ := by
  rw [CacheRequest.key] at hmiss
  rw [answer, request, hmiss, h]

theorem find?_of_answer (h : c.answer q = .ok r) :
    (c.serve q).find? q.key = some r := by
  rw [answer] at h
  rw [serve]
  rcases request_cases c q with ⟨s, hs, hrequest⟩ | ⟨s, _, _, hrequest⟩ | ⟨e, _, _, hrequest⟩
  · rw [hrequest] at h ⊢
    cases h
    exact hs
  · rw [hrequest] at h ⊢
    cases h
    exact congrArg (Option.map Prod.snd) (List.find?_cons_of_pos (decide_eq_true rfl))
  · rw [hrequest] at h
    cases h

/-- What is remembered stays: new groundings are remembered only under keys without one. -/
theorem find?_serve {key : CacheKey} (h : c.find? key = some r) (q : CacheRequest) :
    (c.serve q).find? key = some r := by
  rw [serve]
  rcases request_cases c q with ⟨_, _, hrequest⟩ | ⟨s, hmiss, _, hrequest⟩ | ⟨_, _, _, hrequest⟩
  · rw [hrequest]
    exact h
  · rw [hrequest]
    have hkey : q.key ≠ key := by
      rintro rfl
      rw [hmiss] at h
      cases h
    rw [find?, List.find?_cons_of_neg (by simpa using hkey)]
    exact h
  · rw [hrequest]
    exact h

theorem find?_foldl_serve {key : CacheKey} (h : c.find? key = some r) (qs : List CacheRequest) :
    (qs.foldl serve c).find? key = some r := by
  induction qs generalizing c with
  | nil => exact h
  | cons q qs ih => exact ih (find?_serve h q)

/-- What was answered once is remembered ever after, for every request with the same key. -/
theorem request_again (h : c.answer q = .ok r) (qs : List CacheRequest) (hkey : q'.key = q.key) :
    ((q :: qs).foldl serve c).request q'.compiler q'.problem q'.id =
      ({ (q :: qs).foldl serve c with hits := ((q :: qs).foldl serve c).hits + 1 }, .ok r) := by
  have hfind := find?_foldl_serve (find?_of_answer h) qs
  rw [← hkey] at hfind
  exact request_of_find? hfind

/-- What was answered once is answered ever after, to any compiler of the same name. -/
theorem answer_again (h : c.answer q = .ok r) (qs : List CacheRequest)
    (hname : q'.compiler.name = q.compiler.name) (hproblem : q'.problem = q.problem) :
    ((q :: qs).foldl serve c).answer q' = .ok r :=
  congrArg Prod.snd (request_again h qs (CacheRequest.key_congr hname hproblem))

/-! ## What a run remembers -/

/-- Every remembered grounding is what the compiler of a past request makes of its problem, kept
under the key of that request. -/
def Remembers (past : List CacheRequest) (c : GroundingCache) : Prop :=
  ∀ e ∈ c.entries, ∃ q ∈ past, keyOf q.compiler q.problem = e.1 ∧
    q.compiler.compile q.problem.content .grounding = .ok e.2.content

theorem Remembers.serve {past : List CacheRequest} (h : Remembers past c) (q : CacheRequest) :
    Remembers (past ++ [q]) (c.serve q) := by
  have hold : ∀ e ∈ c.entries, ∃ p ∈ past ++ [q], keyOf p.compiler p.problem = e.1 ∧
      p.compiler.compile p.problem.content .grounding = .ok e.2.content := by
    intro e he
    obtain ⟨p, hp, hmade⟩ := h e he
    exact ⟨p, List.mem_append_left _ hp, hmade⟩
  rw [GroundingCache.serve]
  rcases request_cases c q with ⟨r, _, hrequest⟩ | ⟨r, _, hr, hrequest⟩ | ⟨e, _, _, hrequest⟩
  · rw [hrequest]
    exact hold
  · rw [hrequest]
    intro e he
    rcases List.mem_cons.mp he with rfl | he
    · exact ⟨q, List.mem_append_right _ List.mem_cons_self, rfl, hr⟩
    · exact hold e he
  · rw [hrequest]
    exact hold

theorem remembers_afterAll (past : List CacheRequest) : Remembers past (afterAll past) := by
  induction past using List.reverseRecOn with
  | nil => exact List.forall_mem_nil _
  | append_singleton past q ih =>
    rw [afterAll_concat]
    exact ih.serve q

/-- An answer is what the compiler of a past request, or of this one, makes of its problem. -/
theorem exists_of_answer {past : List CacheRequest} (h : Remembers past c)
    (hr : c.answer q = .ok r) :
    ∃ p ∈ past ++ [q], p.key = q.key ∧
      p.compiler.compile p.problem.content .grounding = .ok r.content :=
  h.serve q _ (mem_of_find? (find?_of_answer hr))

theorem find?_eq_none {past : List CacheRequest} (h : Remembers past c)
    (hkeys : ∀ p ∈ past, p.key ≠ q.key) : c.find? q.key = none := by
  cases hfind : c.find? q.key with
  | none => rfl
  | some r =>
    obtain ⟨p, hp, hkey, _⟩ := h _ (mem_of_find? hfind)
    exact absurd hkey (hkeys p hp)

/-- Requests with the same key are about the same problem with the same content. -/
theorem problem_eq_of_keyOf {P Q : Identified Problem} {A B : Compiler} {texts : List String}
    (hdigests : DigestsApart texts) (hPs : P.content.json.render ∈ texts)
    (hQs : Q.content.json.render ∈ texts) (hP : P.content.Built) (hQ : Q.content.Built)
    (h : keyOf A P = keyOf B Q) : P = Q := by
  obtain ⟨_, hid, hfingerprint⟩ := CacheKey.mk.inj h
  have hcontent : P.content = Q.content :=
    (hP.render_inj hQ).mp (hdigests.render_eq hPs hQs hfingerprint)
  cases P
  cases Q
  rw [Identified.mk.injEq]
  exact ⟨hid, hcontent⟩

end GroundingCache

/-! ## Grounders and the cache -/

structure GrounderRequest where
  grounder : Grounder
  problem : Identified Problem
  id : Nat

namespace GrounderRequest

def toCacheRequest (q : GrounderRequest) : CacheRequest := ⟨q.grounder.toCompiler, q.problem, q.id⟩

/-- What the grounder makes of the problem if the cache is left out. -/
def direct (q : GrounderRequest) : Except GroundingError CompilerResult :=
  q.grounder.compile q.problem.content .grounding

def cacheAfter (qs : List GrounderRequest) : GroundingCache :=
  .afterAll (qs.map toCacheRequest)

theorem cacheAfter_append (qs rs : List GrounderRequest) :
    cacheAfter (qs ++ rs) = (rs.map toCacheRequest).foldl GroundingCache.serve (cacheAfter qs) := by
  rw [cacheAfter, List.map_append]
  exact GroundingCache.afterAll_append _ _

end GrounderRequest

namespace Examples

/-- A hall that can be entered if it is open, which it is not, and no action opens it. -/
def hall : Problem :=
  .build "hall" [
    .addFluent (.predicate "open" []),
    .addFluent (.predicate "inside" []),
    .addAction ⟨"enter", [], [.fluent "open" []], [makes "inside" [] true]⟩]

theorem hall_built : hall.Built := ⟨_, _, rfl⟩

def openHall : Problem := hall.perform (.setTrue "open" [])

/-- The grounding of the open hall, which has a way in. -/
def groundOpenHall : CompilerResult :=
  ((grounder true).ground openHall).toOption.getD ⟨openHall, .empty, ""⟩

theorem ground_openHall : (grounder true).ground openHall = .ok groundOpenHall := by
  decide +kernel

theorem hall_digest_ne :
    Sha256.textDigest hall.json.render ≠ Sha256.textDigest openHall.json.render := by
  decide +kernel

/-- The hall is asked for by a grounder that prunes, and a copy of it by one that does not. -/
def hallRequests : List GrounderRequest :=
  [⟨grounder true, ⟨0, hall⟩, 2⟩, ⟨grounder false, ⟨1, hall⟩, 3⟩]

/-- The hall is asked for after it was opened. -/
def openRequest (id : Nat) : GrounderRequest := ⟨grounder true, ⟨0, openHall⟩, id⟩

end Examples

namespace GroundingCache

open GrounderRequest Grounder Examples

/-- What a cache answers to a grounder was made, from the same problem with the same content, by a
grounder that was asked before or by the one that asks. If those two agree on pruning, the one that
asks makes the same of the problem by itself, or refuses it for a setting in which they differ. -/
theorem answer_transparent {past : List GrounderRequest} {q : GrounderRequest}
    {r : Identified CompilerResult} (hbuilt : ∀ p ∈ past ++ [q], p.problem.content.Built)
    (hdigests : DigestsApart ((past ++ [q]).map fun p => p.problem.content.json.render))
    (hr : (cacheAfter past).answer q.toCacheRequest = .ok r) :
    ∃ p ∈ past ++ [q], p.problem = q.problem ∧ p.direct = .ok r.content ∧
      (q.grounder.options.pruneStatic = p.grounder.options.pruneStatic →
        q.direct = .ok r.content ∨
          ∃ e, q.direct = .error e ∧ Refusal p.grounder q.grounder q.problem.content e) := by
  obtain ⟨_, hmem, hkey, hmade⟩ := exists_of_answer (remembers_afterAll _) hr
  rw [← List.map_singleton, ← List.map_append] at hmem
  obtain ⟨p, hp, rfl⟩ := List.mem_map.mp hmem
  have hq : q ∈ past ++ [q] := List.mem_append_right _ List.mem_cons_self
  have hproblem : p.problem = q.problem :=
    problem_eq_of_keyOf hdigests (List.mem_map_of_mem hp) (List.mem_map_of_mem hq) (hbuilt p hp)
      (hbuilt q hq) hkey
  have hdirect : p.direct = .ok r.content := hmade
  refine ⟨p, hp, hproblem, hdirect, fun hprune => ?_⟩
  rw [direct, hproblem] at hdirect
  exact compile_answersOr hprune .grounding _ hdirect

/-- Once the hall is open it is grounded anew, since the grounding from before is kept under another
key. -/
theorem answer_openHall :
    (cacheAfter (hallRequests ++ [openRequest 4])).answer (openRequest 5).toCacheRequest =
      .ok ⟨4, groundOpenHall⟩ := by
  have hshut : ∀ p ∈ hallRequests, p.problem.content = hall := by
    simp [hallRequests]
  have hmiss : (cacheAfter hallRequests).find? (openRequest 4).toCacheRequest.key = none := by
    apply find?_eq_none (remembers_afterAll _)
    intro p hp hkey
    obtain ⟨p, hasked, rfl⟩ := List.mem_map.mp hp
    have hfingerprint : p.problem.content.fingerprint = openHall.fingerprint :=
      (CacheKey.mk.inj hkey).2.2
    rw [hshut p hasked] at hfingerprint
    exact hall_digest_ne (Sha256.hex_inj.mp hfingerprint)
  rw [cacheAfter_append]
  exact answer_again (answer_of_compile hmiss ground_openHall) [] rfl rfl

theorem answer_transparent_hall :
    (cacheAfter (hallRequests ++ [openRequest 4])).answer (openRequest 5).toCacheRequest =
        .ok ⟨4, groundOpenHall⟩ ∧
      (openRequest 5).direct = .ok groundOpenHall ∧
      groundOpenHall.problem.actions.map Action.name = ["enter"] ∧
      ((grounder true).ground hall).map (fun R => R.problem.actions) = .ok [] := by
  have hbuilt : ∀ p ∈ hallRequests ++ [openRequest 4] ++ [openRequest 5],
      p.problem.content.Built := by
    have hopen : openHall.Built := hall_built.performed _
    simp [hallRequests, openRequest, hall_built, hopen]
  have hdigests : DigestsApart ((hallRequests ++ [openRequest 4] ++ [openRequest 5]).map
      fun p => p.problem.content.json.render) :=
    (DigestsApart.of_ne hall_digest_ne).mono (by simp [hallRequests, openRequest])
  obtain ⟨p, hp, hproblem, _, hsame⟩ := answer_transparent hbuilt hdigests answer_openHall
  have hgrounder : p.grounder = grounder true := by
    have hid : p.problem.id = 0 := congrArg Identified.id hproblem
    simp only [hallRequests, List.mem_append, List.mem_cons, List.not_mem_nil, or_false] at hp
    rcases hp with ((rfl | rfl) | rfl) | rfl
    · rfl
    · cases hid
    · rfl
    · rfl
  refine ⟨answer_openHall, ?_, by decide +kernel, by decide +kernel⟩
  rcases hsame (by rw [hgrounder]; rfl) with hdirect | ⟨e, _, hrefusal⟩
  · exact hdirect
  · rw [hgrounder] at hrefusal
    exact absurd hrefusal (not_refusal rfl rfl rfl e)

/-- The key of a remembered grounding says nothing of settings. Once the roads are grounded with
pruning, every grounder is answered that grounding: one that does not prune, which makes more
ground actions, and ones that are cancelled, that have too low a limit or that do not accept the
features of the roads, which refuse them. -/
theorem cached_settings_differ :
    roads.Built ∧
      (∀ G : Grounder, (cacheAfter [⟨grounder true, ⟨0, roads⟩, 1⟩]).answer
        (toCacheRequest ⟨G, ⟨0, roads⟩, 2⟩) = .ok ⟨1, groundRoads true⟩) ∧
      (groundRoads true).problem.actions.length = 3 ∧
      (grounder false).compile roads .grounding = .ok (groundRoads false) ∧
      (groundRoads false).problem.actions.length = 9 ∧
      compile ⟨{}, .all, true⟩ roads .grounding = .error .cancelled ∧
      compile ⟨⟨true, some 1⟩, .all, false⟩ roads .grounding =
        .error (.tooManyGroundActions "roads" 1) ∧
      compile ⟨{}, .ofList [], false⟩ roads .grounding =
        .error (.unsupportedFeature "enumerative-grounder" roads.kind.features) := by
  have hfirst : empty.answer (toCacheRequest ⟨grounder true, ⟨0, roads⟩, 1⟩) =
      .ok ⟨1, groundRoads true⟩ := answer_of_compile rfl (ground_roads true)
  refine ⟨⟨_, _, rfl⟩, fun G => answer_again hfirst [] rfl rfl, ?_, ?_, ?_, ?_, ?_, ?_⟩
  · decide +kernel
  · exact ground_roads false
  · decide +kernel
  · decide +kernel
  · decide +kernel
  · decide +kernel

end GroundingCache

end LiftedPlanning
