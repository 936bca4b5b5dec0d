import ShaDiff.Cache
import ShaDiff.Column
import ShaDiff.Sum.Derivation

/-!
# What propagation remembers

The outcome of a column depends on its gate and conditions alone, and the
derivation of a sum on the conditions of its words. Results are remembered
under those, whatever bits the conditions were read from. The key of a sum says
which word the sum defines and joins the conditions of all its words.
-/

namespace ShaDiff

structure ColumnKey where
  gate : Gate
  inputs : List Condition
  outputs : List Condition
deriving DecidableEq

namespace ColumnKey

instance : Ord ColumnKey :=
  ⟨compareLex (compareOn gate) (compareLex (compareOn inputs) (compareOn outputs))⟩
instance : Std.TransOrd ColumnKey :=
  inferInstanceAs (Std.TransCmp
    (compareLex (compareOn gate) (compareLex (compareOn inputs) (compareOn outputs))))
instance : Std.LawfulEqOrd ColumnKey where
  eq_of_compare {k l} h := by
    have h := Ordering.then_eq_eq.1 (show ((compare k.gate l.gate).then _) = _ from h)
    have h' := Ordering.then_eq_eq.1 (show ((compare k.inputs l.inputs).then _) = _ from h.2)
    rcases k with ⟨g, i, o⟩
    rcases l with ⟨g', i', o'⟩
    rw [ColumnKey.mk.injEq]
    exact ⟨Std.LawfulEqOrd.eq_of_compare h.1, Std.LawfulEqOrd.eq_of_compare h'.1,
      Std.LawfulEqOrd.eq_of_compare h'.2⟩

end ColumnKey

structure SumKey where
  role : Role
  conditions : List Condition
deriving DecidableEq

namespace SumKey

instance : Ord SumKey := ⟨compareLex (compareOn role) (compareOn conditions)⟩
instance : Std.TransOrd SumKey :=
  inferInstanceAs (Std.TransCmp (compareLex (compareOn role) (compareOn conditions)))
instance : Std.LawfulEqOrd SumKey where
  eq_of_compare {k l} h := by
    have h' := Ordering.then_eq_eq.1 (show ((compare k.role l.role).then _) = _ from h)
    rcases k with ⟨r, c⟩
    rcases l with ⟨s, d⟩
    rw [SumKey.mk.injEq]
    exact ⟨Std.LawfulEqOrd.eq_of_compare h'.1, Std.LawfulEqOrd.eq_of_compare h'.2⟩

end SumKey

/-- Remembers `none` for a contradiction. -/
abbrev ColumnCache := Cache ColumnKey (Option Column.Outcome)

abbrev SumCache := Cache SumKey Sum.Derivation

end ShaDiff
