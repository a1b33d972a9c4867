import LiftedPlanning.Enumeration
import LiftedPlanning.Proofs.Outcome
import Mathlib.Data.List.Nodup

/-!
# Enumerated and accepted argument lists

Argument lists are enumerated as tuples over the domains of the parameters, and they are checked
one argument at a time, by looking up the object and comparing types. If objects have distinct
names both come to the same lists (`Vocabulary.mem_tuples_domains`), and each list is enumerated
once (`Vocabulary.nodup_tuples_domains`).
-/

namespace LiftedPlanning

/-! ## Look-ups by a key -/

/-- Where keys are distinct, looking up the key of an element finds that element. -/
theorem find?_key_eq_some {α κ : Type} [DecidableEq κ] {key : α → κ} {l : List α}
    (h : (l.map key).Nodup) {a : α} (ha : a ∈ l) :
    (l.find? fun x => key x = key a) = some a := by
  cases hf : l.find? fun x => key x = key a with
  | none => simpa using List.find?_eq_none.mp hf a ha
  | some b =>
    have hkey : key b = key a := by simpa using List.find?_some hf
    rw [List.inj_on_of_nodup_map h (List.mem_of_find?_eq_some hf) ha hkey]

theorem find?_key_eq_some_iff {α κ : Type} [DecidableEq κ] {key : α → κ} {l : List α}
    (h : (l.map key).Nodup) {k : κ} {a : α} :
    (l.find? fun x => key x = k) = some a ↔ a ∈ l ∧ key a = k := by
  constructor
  · intro hfind
    exact ⟨List.mem_of_find?_eq_some hfind, by simpa using List.find?_some hfind⟩
  · rintro ⟨ha, rfl⟩
    exact find?_key_eq_some h ha

/-! ## Tuples -/

theorem mem_tuples {α : Type} {xs : List α} {ds : List (List α)} :
    xs ∈ tuples ds ↔ List.Forall₂ (fun x d => x ∈ d) xs ds := by
  induction ds generalizing xs with
  | nil => rw [tuples, List.mem_singleton, List.forall₂_nil_right_iff]
  | cons d ds ih =>
    rw [tuples, List.mem_flatMap, List.forall₂_cons_right_iff]
    constructor
    · rintro ⟨x, hx, h⟩
      obtain ⟨ys, hys, rfl⟩ := List.mem_map.mp h
      exact ⟨x, ys, hx, ih.mp hys, rfl⟩
    · rintro ⟨x, ys, hx, hys, rfl⟩
      exact ⟨x, hx, List.mem_map.mpr ⟨ys, ih.mpr hys, rfl⟩⟩

theorem nodup_tuples {α : Type} {ds : List (List α)} (h : ∀ d ∈ ds, d.Nodup) :
    (tuples ds).Nodup := by
  induction ds with
  | nil => exact List.nodup_singleton _
  | cons d ds ih =>
    obtain ⟨hd, hds⟩ := List.forall_mem_cons.mp h
    have hcons : ∀ x ∈ d, ((tuples ds).map (x :: ·)).Nodup := by
      intro x _
      exact (ih hds).map fun _ _ hxy => (List.cons.inj hxy).2
    refine List.nodup_flatMap.mpr ⟨hcons, hd.imp fun {x y} hxy => ?_⟩
    -- tuples with different heads are different
    intro zs hx hy
    obtain ⟨_, _, rfl⟩ := List.mem_map.mp hx
    obtain ⟨_, _, hz⟩ := List.mem_map.mp hy
    exact hxy (List.cons.inj hz).1.symm

namespace Vocabulary

variable {V : Vocabulary} {p : Parameter} {params : List Parameter} {args : List String}

/-! ## Domains -/

/-- An object of the name exists, and its type fits the parameter. -/
def Fits (V : Vocabulary) (p : Parameter) (arg : String) : Prop :=
  ∃ o, V.object arg = .ok o ∧ V.types.isCompatible o.type p.type = true

def ObjectsDistinct (V : Vocabulary) : Prop := (V.objects.map Object.name).Nodup

theorem object_eq_ok {name : String} {o : Object} (h : V.object name = .ok o) :
    o ∈ V.objects ∧ o.name = name := by
  unfold object at h
  split at h
  · next o' ho =>
    cases h
    exact ⟨List.mem_of_find?_eq_some ho, by simpa using List.find?_some ho⟩
  · cases h

theorem object_of_mem (hV : V.ObjectsDistinct) {o : Object} (ho : o ∈ V.objects) :
    V.object o.name = .ok o := by
  rw [object, find?_key_eq_some hV ho]

theorem domain_eq_ok {d : List String} (h : V.domain p = .ok d) :
    d = (V.objects.filter fun o => V.types.isCompatible o.type p.type).map Object.name := by
  obtain ⟨os, hos, hd⟩ := bind_eq_ok.mp h
  cases hd
  unfold objectsOf at hos
  split at hos
  · cases hos
    rfl
  · cases hos

theorem mem_domain (hV : V.ObjectsDistinct) {d : List String} (h : V.domain p = .ok d)
    {arg : String} : arg ∈ d ↔ V.Fits p arg := by
  rw [domain_eq_ok h]
  constructor
  · intro harg
    obtain ⟨o, ho, rfl⟩ := List.mem_map.mp harg
    obtain ⟨hmem, hfit⟩ := List.mem_filter.mp ho
    exact ⟨o, object_of_mem hV hmem, hfit⟩
  · rintro ⟨o, ho, hfit⟩
    obtain ⟨hmem, rfl⟩ := object_eq_ok ho
    exact List.mem_map.mpr ⟨o, List.mem_filter.mpr ⟨hmem, hfit⟩, rfl⟩

theorem nodup_domain (hV : V.ObjectsDistinct) {d : List String} (h : V.domain p = .ok d) :
    d.Nodup := by
  rw [domain_eq_ok h]
  exact hV.sublist (List.filter_sublist.map Object.name)

/-! ## Checked argument lists -/

theorem checkArg_eq_ok {item arg : String} : V.checkArg item p arg = .ok () ↔ V.Fits p arg := by
  unfold checkArg
  rw [bind_eq_ok]
  refine exists_congr fun o => and_congr_right fun _ => ?_
  unfold checkType
  split
  · next h => simpa using h
  · next h => simpa using h

theorem checkArgs_eq_ok {item : String} :
    V.checkArgs item params args = .ok () ↔ List.Forall₂ V.Fits params args := by
  unfold checkArgs
  rw [List.forall₂_iff_zip]
  split
  · next hlen => exact ⟨nofun, fun h => absurd h.1 hlen⟩
  · next hlen =>
    rw [forM_eq_ok]
    constructor
    · exact fun h => ⟨not_not.mp hlen, fun hx => checkArg_eq_ok.mp (h _ hx)⟩
    · exact fun h x hx => checkArg_eq_ok.mpr (h.2 hx)

/-- An argument list is enumerated exactly if it is accepted. -/
theorem mem_tuples_domains (hV : V.ObjectsDistinct) {ds : List (List String)}
    (h : V.domains params = .ok ds) {item : String} :
    args ∈ tuples ds ↔ V.checkArgs item params args = .ok () := by
  rw [mem_tuples, checkArgs_eq_ok]
  have hds := mapM_eq_ok.mp h
  clear h
  induction hds generalizing args with
  | nil => rw [List.forall₂_nil_right_iff, List.forall₂_nil_left_iff]
  | cons hd _ ih =>
    rw [List.forall₂_cons_right_iff, List.forall₂_cons_left_iff]
    simp only [mem_domain hV hd, ih]

theorem nodup_tuples_domains (hV : V.ObjectsDistinct) {ds : List (List String)}
    (h : V.domains params = .ok ds) : (tuples ds).Nodup := by
  refine nodup_tuples fun d hd => ?_
  obtain ⟨p, _, hp⟩ := exists_of_mem_mapM h hd
  exact nodup_domain hV hp

theorem length_of_mem_tuples_domains {ds : List (List String)} (h : V.domains params = .ok ds)
    (hargs : args ∈ tuples ds) : params.length = args.length :=
  (mapM_eq_ok.mp h).length_eq.trans (mem_tuples.mp hargs).length_eq.symm

end Vocabulary

end LiftedPlanning
