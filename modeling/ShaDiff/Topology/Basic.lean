import ShaDiff.Bit
import ShaDiff.Encoding
import ShaDiff.Gate
import ShaDiff.Marks
import ShaDiff.Role
import ShaDiff.Valuation

/-!
# The topology of a propagator

The topology says which words there are, which atoms stand for their bits, how
the operations and sums of the step function read them, and who reads a bit.
It grows while entries of a configuration come in and is fixed by the last one,
the order. Words, operations and sums are named by their index.
-/

namespace ShaDiff

structure Word where
  role : Role
  round : Int
deriving DecidableEq

namespace Word

instance : Ord Word := ⟨compareLex (compareOn role) (compareOn round)⟩
instance : Std.TransOrd Word :=
  inferInstanceAs (Std.TransCmp (compareLex (compareOn role) (compareOn round)))
instance : Std.LawfulEqOrd Word where
  eq_of_compare {v w} h := by
    have h' := Ordering.then_eq_eq.1 (show ((compare v.role w.role).then _) = _ from h)
    rcases v with ⟨r, i⟩
    rcases w with ⟨s, j⟩
    rw [Word.mk.injEq]
    exact ⟨Std.LawfulEqOrd.eq_of_compare h'.1, Std.LawfulEqOrd.eq_of_compare h'.2⟩

def name (w : Word) : String := s!"{w.role.name}_{w.round}"

end Word

structure Step where
  round : Int
  words : List (Role × Nat)
deriving DecidableEq

def Step.word? (s : Step) (r : Role) : Option Nat := s.words.lookup r

structure Operation where
  gate : Gate
  round : Int
  /-- The role of the word the operation defines. -/
  role : Role
  inputs : List View
  outputs : List View
deriving DecidableEq

def Operation.name (o : Operation) : String := s!"{o.gate.label}[{o.role.name}]@{o.round}"

/-- The sum of the positive words is the sum of the negative ones. -/
structure SumEquation where
  /-- The role of the word the sum defines. -/
  role : Role
  round : Int
  positive : List Nat
  negative : List Nat
deriving DecidableEq

def SumEquation.words (s : SumEquation) : List Nat := s.positive ++ s.negative

/-- The columns of operations and the sums that read a bit, each once. -/
structure Readers where
  sites : List Site := []
  sums : List Nat := []
deriving DecidableEq

structure Topology where
  encoding : Encoding
  wordSize : Nat
  /-- The number of rounds, once the topology is fixed. -/
  order : Option Nat := none
  words : Array Word := #[⟨.zero, 0⟩]
  /-- The steps by round, the first round first. -/
  steps : Array Step := #[]
  operations : Array Operation := #[]
  sums : Array SumEquation := #[]
  /-- The atoms of each bit that has one. -/
  atoms : Std.TreeMap Bit Slots := ∅
  tracked : Tracking := ∅
  zeroAtoms : Option (List Atom) := none
  /-- The words entries have named. -/
  named : Std.TreeMap Word Nat := ∅
  readers : Std.TreeMap Bit Readers := ∅

namespace Topology

def isBuilt (t : Topology) : Bool := t.order.isSome

/-- The atoms of a bit. Bits of the zero word have none. -/
def slots (t : Topology) (b : Bit) : Slots := if b.isZero then [] else t.atoms.getD b []

def slotAtoms (t : Topology) (b : Bit) : List Atom := (t.slots b).filterMap id

def isZeroAtom (t : Topology) (a : Atom) : Bool := (t.zeroAtoms.getD []).contains a

def stepAt? (t : Topology) (round : Int) : Option Step :=
  let index := round - firstRound
  if 0 ≤ index then t.steps[index.toNat]? else none

/-- The word of a role and round: of the step of the round, and before there is
one, as named by an entry. -/
def wordAt? (t : Topology) (r : Role) (round : Int) : Option Nat :=
  match t.stepAt? round with
  | some step => step.word? r
  | none => t.named[(⟨r, round⟩ : Word)]?

def wordBits (t : Topology) (word : Nat) : List Bit :=
  (List.range t.wordSize).map fun column => ⟨word, column⟩

def isVacant (t : Topology) (word : Nat) : Bool :=
  (t.wordBits word).all fun b => (t.slotAtoms b).isEmpty

def inputBits (t : Topology) (o : Operation) (column : Nat) : List Bit :=
  o.inputs.map (·.bit t.wordSize column)

def outputBits (t : Topology) (o : Operation) (column : Nat) : List Bit :=
  o.outputs.map (·.bit t.wordSize column)

def readersOf (t : Topology) (b : Bit) : Readers := t.readers.getD b {}

/-- Who reads the bit of an atom, as long as the atom is in the slot it was
tracked for. An atom whose slot went to another one has no readers. -/
def readersOfAtom (t : Topology) (a : Atom) (p : Place) : Readers :=
  if (t.slots p.bit)[p.slot]?.join = some a then t.readersOf p.bit else {}

end Topology

end ShaDiff
