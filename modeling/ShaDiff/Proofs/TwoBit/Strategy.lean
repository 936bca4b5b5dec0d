import Mathlib.Tactic.TFAE
import ShaDiff.Proofs.TwoBit.Cycle
import ShaDiff.Proofs.TwoBit.Kernel
import ShaDiff.Proofs.TwoBit.SignedSets
import ShaDiff.TwoBit.Strategy

/-!
# All ways to check equations agree

Signed sets, the kernel and the cycles of a graph each find something exactly where
equations have no common solution. So it does not matter which of them detects an
inconsistency and which gives the clause for it.
-/

namespace ShaDiff.TwoBit

variable {es : List Equation} {c : Clause}

theorem tfae_not_consistent (es : List Equation) :
    [¬ Consistent es, (SignedSets.empty.firstContradiction? es).isSome = true,
      SignedSets.empty.contradictions es ≠ [], Kernel.inconsistentSubsets es ≠ [],
      (Kernel.shortestClause? es).isSome = true,
      (Cycle.shortestClause? es).isSome = true].TFAE := by
  tfae_have 1 ↔ 2 := SignedSets.firstContradiction?_empty.symm
  tfae_have 1 ↔ 3 := not_congr SignedSets.contradictions_empty.symm
  tfae_have 1 ↔ 4 := not_congr Kernel.inconsistentSubsets_eq_nil.symm
  tfae_have 1 ↔ 5 := Kernel.shortestClause?_isSome.symm
  tfae_have 1 ↔ 6 := Cycle.shortestClause?_isSome.symm
  tfae_finish

namespace Strategy

variable {s : Strategy}

theorem conflict?_isSome (hs : s ≠ off) : (s.conflict? es).isSome = true ↔ ¬ Consistent es := by
  cases s with
  | off => exact absurd rfl hs
  | unionFind =>
    dsimp only [conflict?]
    split
    · exact Kernel.shortestClause?_isSome
    · rename_i hnone
      exact ⟨nofun, fun hc => absurd (SignedSets.firstContradiction?_empty.mpr hc) hnone⟩
  | graph => exact Cycle.shortestClause?_isSome

theorem conflict?_eq_some (h : s.conflict? es = some c) :
    ∃ fs, (∀ f ∈ fs, f ∈ es) ∧ ¬ Consistent fs ∧ c = Equation.blockingClause fs := by
  cases s with
  | off => cases h
  | unionFind =>
    dsimp only [conflict?] at h
    split at h
    · exact Kernel.shortestClause?_eq_some h
    · cases h
  | graph => exact Cycle.shortestClause?_eq_some h

end Strategy

end ShaDiff.TwoBit
