import ShaDiff.Literal
import ShaDiff.Role

/-!
# Faults

What can be wrong with an entry of a configuration, with a line of a text, or
with the moment of a question.
-/

namespace ShaDiff

inductive Fault
  | notBuilt
  /-- The entry came after the topology was built. -/
  | alreadyBuilt
  | missingZero
  | malformedName (name : String)
  | unknownRole (role : String)
  | roundOutOfRange (round : Int)
  | columnOutOfRange (column : Nat)
  | invalidIdentifier (identifier : Int)
  | duplicateAtom (atom : Atom)
  | invalidOrder (order : Int)
  /-- A word the step function cannot do without was never named. -/
  | missingWord (role : Role) (round : Int)
  /-- Something is wrong with a line, which is counted from one. -/
  | line (number : Nat)
  | unknownOperation (number : Nat)
  /-- A pattern of a rule has an unknown character or the wrong length. -/
  | pattern (number : Nat)
deriving DecidableEq

def Fault.message : Fault → String
  | notBuilt | alreadyBuilt | missingZero => ""
  | malformedName s | unknownRole s => s
  | roundOutOfRange i | invalidIdentifier i | invalidOrder i => toString i
  | columnOutOfRange n | duplicateAtom n => toString n
  | missingWord role round => s!"{role.name}_{round}"
  | line n | unknownOperation n | pattern n => toString n

end ShaDiff
