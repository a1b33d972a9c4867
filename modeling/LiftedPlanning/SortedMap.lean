/-!
# Sorted maps

A finite map kept as the list of its entries in strictly increasing order of keys. The order is
part of the type, so a map has exactly one representation: two maps with the same look-ups are
equal (`SortedMap.ext_get?`), and printing the entries needs no sorting. States, initial values
and cost tables are all maps of this kind.

`get?_insert` and `get?_erase` say what the two operations do to look-ups; nothing else has to
unfold them.
-/

namespace LiftedPlanning

/-- A finite map whose entries are listed by strictly increasing key. -/
structure SortedMap (κ ν : Type) [Ord κ] where
  entries : List (κ × ν)
  sorted : entries.Pairwise fun a b => compare a.1 b.1 = .lt
deriving DecidableEq

namespace SortedMap

variable {κ ν : Type} [Ord κ]

/-! ## Entry lists -/

/-- The value listed for `k`; the walk ends at the first larger key. -/
def lookupEntry (k : κ) : List (κ × ν) → Option ν
  | [] => none
  | (k', v) :: rest =>
    match compare k k' with
    | .lt => none
    | .eq => some v
    | .gt => lookupEntry k rest

def insertEntry (k : κ) (v : ν) : List (κ × ν) → List (κ × ν)
  | [] => [(k, v)]
  | (k', v') :: rest =>
    match compare k k' with
    | .lt => (k, v) :: (k', v') :: rest
    | .eq => (k, v) :: rest
    | .gt => (k', v') :: insertEntry k v rest

def eraseEntry (k : κ) : List (κ × ν) → List (κ × ν)
  | [] => []
  | (k', v') :: rest =>
    match compare k k' with
    | .lt => (k', v') :: rest
    | .eq => rest
    | .gt => (k', v') :: eraseEntry k rest

theorem mem_of_mem_insertEntry {k : κ} {v : ν} {e : κ × ν} :
    ∀ {l : List (κ × ν)}, e ∈ insertEntry k v l → e = (k, v) ∨ e ∈ l
  | [], h => by simpa [insertEntry] using h
  | (k', v') :: rest, h => by
    simp only [insertEntry] at h
    split at h
    · simpa using h
    · rcases List.mem_cons.mp h with h | h
      · exact .inl h
      · exact .inr (List.mem_cons_of_mem _ h)
    · rcases List.mem_cons.mp h with h | h
      · exact .inr (by simp [h])
      · exact (mem_of_mem_insertEntry h).imp id (List.mem_cons_of_mem _)

theorem eraseEntry_sublist (k : κ) : ∀ l : List (κ × ν), (eraseEntry k l).Sublist l
  | [] => .slnil
  | (k', v') :: rest => by
    simp only [eraseEntry]
    split
    · exact .refl _
    · exact .cons _ (.refl _)
    · exact (eraseEntry_sublist k rest).cons_cons _

variable [Std.TransOrd κ]

theorem insertEntry_sorted (k : κ) (v : ν) {l : List (κ × ν)}
    (h : l.Pairwise fun a b => compare a.1 b.1 = .lt) :
    (insertEntry k v l).Pairwise fun a b => compare a.1 b.1 = .lt := by
  induction l with
  | nil => simp [insertEntry]
  | cons e rest ih =>
    obtain ⟨k', v'⟩ := e
    obtain ⟨hhead, hrest⟩ := List.pairwise_cons.mp h
    simp only [insertEntry]
    split
    · next hlt =>
      refine List.pairwise_cons.mpr ⟨fun x hx => ?_, h⟩
      rcases List.mem_cons.mp hx with rfl | hx
      · exact hlt
      · exact Std.TransCmp.lt_trans hlt (hhead x hx)
    · next heq =>
      refine List.pairwise_cons.mpr ⟨fun x hx => ?_, hrest⟩
      exact Std.TransCmp.lt_of_eq_of_lt heq (hhead x hx)
    · next hgt =>
      refine List.pairwise_cons.mpr ⟨fun x hx => ?_, ih hrest⟩
      rcases mem_of_mem_insertEntry hx with rfl | hx
      · exact Std.OrientedCmp.lt_of_gt hgt
      · exact hhead x hx

/-! ## Maps -/

def empty : SortedMap κ ν := ⟨[], .nil⟩

def get? (m : SortedMap κ ν) (k : κ) : Option ν := lookupEntry k m.entries

def insert (m : SortedMap κ ν) (k : κ) (v : ν) : SortedMap κ ν :=
  ⟨insertEntry k v m.entries, insertEntry_sorted k v m.sorted⟩

def erase (m : SortedMap κ ν) (k : κ) : SortedMap κ ν :=
  ⟨eraseEntry k m.entries, m.sorted.sublist (eraseEntry_sublist k m.entries)⟩

def filter (p : κ → ν → Bool) (m : SortedMap κ ν) : SortedMap κ ν :=
  ⟨m.entries.filter fun e => p e.1 e.2, m.sorted.sublist List.filter_sublist⟩

def size (m : SortedMap κ ν) : Nat := m.entries.length

def isEmpty (m : SortedMap κ ν) : Bool := m.entries.isEmpty

/-- The map of a list of pairs; a later pair for the same key wins. -/
def ofList (es : List (κ × ν)) : SortedMap κ ν :=
  es.foldl (fun m e => m.insert e.1 e.2) empty

/-! ## Look-ups -/

omit [Std.TransOrd κ] in
@[simp] theorem get?_empty (k : κ) : (empty : SortedMap κ ν).get? k = none := rfl

omit [Std.TransOrd κ] in
theorem lookupEntry_eq_none_of_lt {k : κ} {l : List (κ × ν)}
    (h : ∀ e ∈ l, compare k e.1 = .lt) : lookupEntry k l = none := by
  cases l with
  | nil => rfl
  | cons e rest => simp [lookupEntry, h e (List.mem_cons_self ..)]

variable [Std.LawfulEqOrd κ]

omit [Std.TransOrd κ] in
theorem lookupEntry_insertEntry_self (k : κ) (v : ν) (l : List (κ × ν)) :
    lookupEntry k (insertEntry k v l) = some v := by
  induction l with
  | nil => simp [insertEntry, lookupEntry]
  | cons e rest ih =>
    simp only [insertEntry]
    split
    · simp [lookupEntry]
    · simp [lookupEntry]
    · next hgt => simp [lookupEntry, hgt, ih]

theorem lookupEntry_insertEntry_of_ne {k k' : κ} (hne : k' ≠ k) (v : ν) (l : List (κ × ν)) :
    lookupEntry k' (insertEntry k v l) = lookupEntry k' l := by
  induction l with
  | nil =>
    simp only [insertEntry, lookupEntry]
    split
    · rfl
    · next heq => exact absurd (Std.LawfulEqCmp.eq_of_compare heq) hne
    · rfl
  | cons e rest ih =>
    obtain ⟨k₁, v₁⟩ := e
    simp only [insertEntry]
    split
    · next hlt =>
      show lookupEntry k' ((k, v) :: (k₁, v₁) :: rest) = _
      conv => lhs; rw [lookupEntry]
      split
      · next hlt' =>
        simp [lookupEntry, Std.TransCmp.lt_trans hlt' hlt]
      · next heq => exact absurd (Std.LawfulEqCmp.eq_of_compare heq) hne
      · rfl
    · next heq =>
      obtain rfl := Std.LawfulEqCmp.eq_of_compare heq
      simp only [lookupEntry]
      split
      · rfl
      · next heq' => exact absurd (Std.LawfulEqCmp.eq_of_compare heq') hne
      · rfl
    · simp only [lookupEntry, ih]

theorem lookupEntry_eraseEntry_of_ne {k k' : κ} (hne : k' ≠ k) {l : List (κ × ν)}
    (h : l.Pairwise fun a b => compare a.1 b.1 = .lt) :
    lookupEntry k' (eraseEntry k l) = lookupEntry k' l := by
  induction l with
  | nil => rfl
  | cons e rest ih =>
    obtain ⟨k₁, v₁⟩ := e
    obtain ⟨hhead, hrest⟩ := List.pairwise_cons.mp h
    simp only [eraseEntry]
    split
    · rfl
    · next heq =>
      obtain rfl := Std.LawfulEqCmp.eq_of_compare heq
      simp only [lookupEntry]
      split
      · next hlt =>
        exact lookupEntry_eq_none_of_lt fun e he => Std.TransCmp.lt_trans hlt (hhead e he)
      · next heq' => exact absurd (Std.LawfulEqCmp.eq_of_compare heq') hne
      · rfl
    · simp only [lookupEntry, ih hrest]

omit [Std.TransOrd κ] in
theorem lookupEntry_eraseEntry_self (k : κ) {l : List (κ × ν)}
    (h : l.Pairwise fun a b => compare a.1 b.1 = .lt) :
    lookupEntry k (eraseEntry k l) = none := by
  induction l with
  | nil => rfl
  | cons e rest ih =>
    obtain ⟨k₁, v₁⟩ := e
    obtain ⟨hhead, hrest⟩ := List.pairwise_cons.mp h
    simp only [eraseEntry]
    split
    · next hlt => simp [lookupEntry, hlt]
    · next heq =>
      obtain rfl := Std.LawfulEqCmp.eq_of_compare heq
      exact lookupEntry_eq_none_of_lt hhead
    · next hgt => simp [lookupEntry, hgt, ih hrest]

@[simp] theorem get?_insert_self (m : SortedMap κ ν) (k : κ) (v : ν) :
    (m.insert k v).get? k = some v := lookupEntry_insertEntry_self k v m.entries

theorem get?_insert_of_ne (m : SortedMap κ ν) {k k' : κ} (h : k' ≠ k) (v : ν) :
    (m.insert k v).get? k' = m.get? k' := lookupEntry_insertEntry_of_ne h v m.entries

omit [Std.TransOrd κ] in
@[simp] theorem get?_erase_self (m : SortedMap κ ν) (k : κ) : (m.erase k).get? k = none :=
  lookupEntry_eraseEntry_self k m.sorted

theorem get?_erase_of_ne (m : SortedMap κ ν) {k k' : κ} (h : k' ≠ k) :
    (m.erase k).get? k' = m.get? k' := lookupEntry_eraseEntry_of_ne h m.sorted

theorem get?_insert [DecidableEq κ] (m : SortedMap κ ν) (k k' : κ) (v : ν) :
    (m.insert k v).get? k' = if k' = k then some v else m.get? k' := by
  split
  · next h => subst h; exact get?_insert_self m k' v
  · next h => exact get?_insert_of_ne m h v

theorem get?_erase [DecidableEq κ] (m : SortedMap κ ν) (k k' : κ) :
    (m.erase k).get? k' = if k' = k then none else m.get? k' := by
  split
  · next h => subst h; exact get?_erase_self m k'
  · next h => exact get?_erase_of_ne m h

/-! ## Extensionality -/

omit [Std.TransOrd κ] in
theorem mem_of_lookupEntry {k : κ} {v : ν} {l : List (κ × ν)} (h : lookupEntry k l = some v) :
    (k, v) ∈ l := by
  induction l with
  | nil => simp [lookupEntry] at h
  | cons e rest ih =>
    obtain ⟨k₁, v₁⟩ := e
    simp only [lookupEntry] at h
    split at h
    · cases h
    · next heq =>
      obtain rfl := Std.LawfulEqCmp.eq_of_compare heq
      simp_all
    · exact List.mem_cons_of_mem _ (ih h)

theorem lookupEntry_of_mem {k : κ} {v : ν} {l : List (κ × ν)}
    (hs : l.Pairwise fun a b => compare a.1 b.1 = .lt) (h : (k, v) ∈ l) :
    lookupEntry k l = some v := by
  induction l with
  | nil => cases h
  | cons e rest ih =>
    obtain ⟨hhead, hrest⟩ := List.pairwise_cons.mp hs
    rcases List.mem_cons.mp h with rfl | h
    · simp [lookupEntry]
    · have hgt := Std.OrientedCmp.gt_of_lt (hhead _ h)
      simp only [] at hgt
      simp [lookupEntry, hgt, ih hrest h]

theorem get?_eq_some_iff_mem (m : SortedMap κ ν) (k : κ) (v : ν) :
    m.get? k = some v ↔ (k, v) ∈ m.entries :=
  ⟨mem_of_lookupEntry, lookupEntry_of_mem m.sorted⟩

theorem get?_filter (p : κ → ν → Bool) (m : SortedMap κ ν) (k : κ) :
    (m.filter p).get? k = (m.get? k).filter (p k) := by
  apply Option.ext
  intro v
  rw [get?_eq_some_iff_mem, Option.filter_eq_some_iff, get?_eq_some_iff_mem]
  exact List.mem_filter

theorem get?_foldl_insert {es : List (κ × ν)} {k : κ} (h : k ∉ es.map Prod.fst)
    (m : SortedMap κ ν) : (es.foldl (fun m e => m.insert e.1 e.2) m).get? k = m.get? k := by
  induction es generalizing m with
  | nil => rfl
  | cons e es ih =>
    rw [List.map_cons, List.mem_cons, not_or] at h
    rw [List.foldl_cons, ih h.2, get?_insert_of_ne m h.1]

theorem get?_ofList_of_notMem {es : List (κ × ν)} {k : κ} (h : k ∉ es.map Prod.fst) :
    (ofList es).get? k = none := get?_foldl_insert h empty

omit [Std.LawfulEqOrd κ] in
theorem mem_of_mem_ofList {es : List (κ × ν)} {e : κ × ν} (h : e ∈ (ofList es).entries) :
    e ∈ es := by
  have hall : ∀ (es : List (κ × ν)) (m : SortedMap κ ν),
      e ∈ (es.foldl (fun m e => m.insert e.1 e.2) m).entries → e ∈ m.entries ∨ e ∈ es := by
    intro es
    induction es with
    | nil => exact fun _ h => .inl h
    | cons d es ih =>
      intro m h
      rcases ih (m.insert d.1 d.2) h with hinsert | htail
      · rcases mem_of_mem_insertEntry hinsert with rfl | hold
        · exact .inr List.mem_cons_self
        · exact .inl hold
      · exact .inr (List.mem_cons_of_mem _ htail)
  exact (hall es empty h).resolve_left nofun

/-- Where keys are distinct, every pair of the list is an entry of its map. -/
theorem get?_ofList_of_mem {es : List (κ × ν)} (hes : (es.map Prod.fst).Nodup) {k : κ} {v : ν}
    (h : (k, v) ∈ es) : (ofList es).get? k = some v := by
  obtain ⟨fst, snd, rfl⟩ := List.append_of_mem h
  rw [List.map_append, List.map_cons, List.nodup_append] at hes
  have hk : k ∉ snd.map Prod.fst := (List.nodup_cons.mp hes.2.1).1
  rw [ofList, List.foldl_append, List.foldl_cons, get?_foldl_insert hk, get?_insert_self]

/-- A map is determined by its look-ups. -/
theorem ext_get? {m₁ m₂ : SortedMap κ ν} (h : ∀ k, m₁.get? k = m₂.get? k) : m₁ = m₂ := by
  obtain ⟨l₁, s₁⟩ := m₁
  obtain ⟨l₂, s₂⟩ := m₂
  suffices l₁ = l₂ by subst this; rfl
  have hl : ∀ k, lookupEntry k l₁ = lookupEntry k l₂ := h
  clear h
  induction l₁ generalizing l₂ with
  | nil =>
    cases l₂ with
    | nil => rfl
    | cons e rest => simpa [lookupEntry] using hl e.1
  | cons e₁ r₁ ih =>
    cases l₂ with
    | nil => simpa [lookupEntry] using hl e₁.1
    | cons e₂ r₂ =>
      obtain ⟨h₁, t₁⟩ := List.pairwise_cons.mp s₁
      obtain ⟨h₂, t₂⟩ := List.pairwise_cons.mp s₂
      have hmem₁ : e₁ ∈ e₂ :: r₂ :=
        mem_of_lookupEntry ((hl e₁.1).symm.trans (lookupEntry_of_mem s₁ (List.mem_cons_self ..)))
      have hmem₂ : e₂ ∈ e₁ :: r₁ :=
        mem_of_lookupEntry ((hl e₂.1).trans (lookupEntry_of_mem s₂ (List.mem_cons_self ..)))
      have heq : e₁ = e₂ := by
        rcases List.mem_cons.mp hmem₁ with h | h
        · exact h
        rcases List.mem_cons.mp hmem₂ with h' | h'
        · exact h'.symm
        have := Std.TransCmp.lt_trans (h₂ _ h) (h₁ _ h')
        simp at this
      subst heq
      congr 1
      refine ih t₁ r₂ t₂ fun k => ?_
      have := hl k
      simp only [lookupEntry] at this
      split at this
      · next hlt =>
        rw [lookupEntry_eq_none_of_lt fun e he => Std.TransCmp.lt_trans hlt (h₁ e he),
          lookupEntry_eq_none_of_lt fun e he => Std.TransCmp.lt_trans hlt (h₂ e he)]
      · next heq =>
        obtain rfl := Std.LawfulEqCmp.eq_of_compare heq
        rw [lookupEntry_eq_none_of_lt h₁, lookupEntry_eq_none_of_lt h₂]
      · exact this

end SortedMap

end LiftedPlanning
