import LiftedPlanning.Vocabulary
import LiftedPlanning.SortedMap

/-!
# States

A state gives values to fluent instances. An instance that has its fluent's implicit value is not
listed, so two states that give the same values are the same state, and a set of states can be
searched.
-/

namespace LiftedPlanning

/-- The values that differ from the implicit ones, by fluent instance. -/
abbrev State := SortedMap FluentInstance Value

namespace State

/-- Gives an instance a value; the implicit value is not listed. -/
def put (s : State) (i : FluentInstance) (v : Value) (implicit : Option Value) : State :=
  if implicit = some v then s.erase i else s.insert i v

def text (s : State) : String :=
  "\x7b" ++ ", ".intercalate (s.entries.map fun e => e.1.text ++ " = " ++ e.2.text) ++ "\x7d"

/-! ## Order

States are compared entry by entry, so that sets of them can be kept as search trees. -/

def entryOrder : FluentInstance × Value → FluentInstance × Value → Ordering :=
  compareLex (compareOn Prod.fst) (compareOn Prod.snd)

def order (s t : State) : Ordering := List.compareLex entryOrder s.entries t.entries

instance : Std.LawfulEqCmp entryOrder where
  compare_self := by
    intro e
    simp [entryOrder, compareLex, compareOn]
  eq_of_compare := by
    intro a b h
    obtain ⟨h₁, h₂⟩ := compareLex_eq_eq.mp h
    exact Prod.ext (Std.LawfulEqCmp.eq_of_compare h₁) (Std.LawfulEqCmp.eq_of_compare h₂)

instance : Std.TransCmp entryOrder :=
  inferInstanceAs (Std.TransCmp (compareLex (compareOn Prod.fst) (compareOn Prod.snd)))

instance : Std.LawfulEqCmp order where
  compare_self {s} :=
    (Std.ReflCmp.compare_self : List.compareLex entryOrder s.entries s.entries = .eq)
  eq_of_compare := by
    intro s t h
    obtain ⟨l, hl⟩ := s
    obtain ⟨r, hr⟩ := t
    obtain rfl : l = r := Std.LawfulEqCmp.eq_of_compare h
    rfl

instance : Std.TransCmp order where
  eq_swap {s t} :=
    (Std.OrientedCmp.eq_swap : List.compareLex entryOrder s.entries t.entries = _)
  isLE_trans {s _ u} hst htu :=
    (Std.TransCmp.isLE_trans hst htu : (List.compareLex entryOrder s.entries u.entries).isLE)

end State

end LiftedPlanning
