import ShaDiff.TwoBit.Cycle
import ShaDiff.TwoBit.Kernel
import ShaDiff.TwoBit.SignedSets

/-!
# Ways to block inconsistent equations

Equations can be jointly inconsistent although the columns they come from are
not. Signed sets decide whether they are, the kernel then gives a clause; or
the cycles of a graph do both.
-/

namespace ShaDiff.TwoBit

inductive Strategy
  /-- Equations are neither kept nor checked. -/
  | off
  | unionFind
  | graph
deriving DecidableEq

namespace Strategy

def name : Strategy → String
  | off => "off"
  | unionFind => "union_find"
  | graph => "graph"

def all : List Strategy := [off, unionFind, graph]

def index : Strategy → Nat
  | off => 0
  | unionFind => 1
  | graph => 2

instance : LE Strategy := ⟨fun s t => s.index ≤ t.index⟩
instance (s t : Strategy) : Decidable (s ≤ t) := inferInstanceAs (Decidable (s.index ≤ t.index))

def conflict? (s : Strategy) (es : List Equation) : Option Clause :=
  match s with
  | off => none
  | unionFind =>
    if (SignedSets.empty.firstContradiction? es).isSome then Kernel.shortestClause? es else none
  | graph => Cycle.shortestClause? es

end Strategy

end ShaDiff.TwoBit
