import ShaDiff.Condition
import ShaDiff.Literal
import ShaDiff.Role

/-!
# Breaches

A breach is a request the library has no answer to, because a promise between
its parts was broken: going on would make the search unsound. It is told apart
from a rejected entry of a configuration, after which all goes on.
-/

namespace ShaDiff

inductive Breach
  /-- A column of more positions than propagation is made for. -/
  | columnTooWide (positions : Nat)
  | distinctSizes
  /-- The reason was asked of a literal that was never propagated. -/
  | noReason (l : Literal)
  | zeroWordWrite (c : Condition)
  /-- The step function reads a word that no step has. -/
  | noWord (role : Role) (round : Int)
deriving DecidableEq

def Breach.message : Breach → String
  | columnTooWide positions => s!"! Column of {positions} positions"
  | distinctSizes => "! Words of distinct sizes"
  | noReason l => s!"! No reason for {l.toInt}"
  | zeroWordWrite c => s!"! Attempt to write {c.toChar} to the zero word"
  | noWord role round => s!"! No word {role.name}_{round}"

end ShaDiff
