/-!
# Queues

A first-in, first-out queue in two lists: elements leave at the head of `front` and enter at the
head of `back`. Its contents in order are `toList`.
-/

namespace LiftedPlanning

/-- A queue; `back` holds the newest elements, newest first. -/
structure Queue (α : Type) where
  front : List α
  back : List α

namespace Queue

variable {α : Type}

def toList (q : Queue α) : List α := q.front ++ q.back.reverse

def singleton (a : α) : Queue α := ⟨[a], []⟩

def push (q : Queue α) (a : α) : Queue α := ⟨q.front, a :: q.back⟩

def pop? (q : Queue α) : Option (α × Queue α) :=
  match q.front with
  | a :: front => some (a, ⟨front, q.back⟩)
  | [] =>
    match q.back.reverse with
    | [] => none
    | a :: front => some (a, ⟨front, []⟩)

@[simp] theorem toList_push (q : Queue α) (a : α) : (q.push a).toList = q.toList ++ [a] := by
  simp [toList, push]

theorem pop?_eq_none_iff {q : Queue α} : q.pop? = none ↔ q.toList = [] := by
  obtain ⟨front, back⟩ := q
  cases front with
  | nil => cases h : back.reverse <;> simp_all [pop?, toList]
  | cons a front => simp [pop?, toList]

theorem toList_of_pop? {q r : Queue α} {a : α} (h : q.pop? = some (a, r)) :
    q.toList = a :: r.toList := by
  obtain ⟨front, back⟩ := q
  cases front with
  | nil =>
    simp only [pop?] at h
    split at h
    · cases h
    · next hb =>
      cases h
      simp [toList, hb]
  | cons b front =>
    cases h
    simp [toList]

end Queue

end LiftedPlanning
