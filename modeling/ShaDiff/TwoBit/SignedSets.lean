import ShaDiff.Equation
import Std.Data.TreeMap

/-!
# Signed sets of atoms

Atoms whose differences are related form a set with a representative, and each
carries a sign relative to it: the sum of the differences of two atoms of one
set is the sum of their signs. Relating atoms of distinct sets puts the first
set under the representative of the second, and the signs of the first set are
turned where needed.

What is stored says of each atom directly what its representative is, so a
search is a single look-up.
-/

namespace ShaDiff.TwoBit

structure SignedSets where
  /-- The representative of each atom other than a representative, and the sign. -/
  places : Std.TreeMap Atom (Atom × Bool) := ∅

namespace SignedSets

def empty : SignedSets := {}

/-- The representative of the set of an atom, and the sign of the atom in it. -/
def find (s : SignedSets) (a : Atom) : Atom × Bool := s.places.getD a (a, false)

def relation (s : SignedSets) (a b : Atom) : Option Bool :=
  let (rootA, signA) := s.find a
  let (rootB, signB) := s.find b
  if rootA = rootB then some (signA ^^ signB) else none

def merge (s : SignedSets) (root under : Atom) (sign : Bool) : SignedSets :=
  let moved := s.places.map fun _ (r, t) => if r = root then (under, t ^^ sign) else (r, t)
  ⟨moved.insert root (under, sign)⟩

/-- Relates two atoms by the sum of their differences. Answers whether that
agrees with the relations there are, and changes nothing where it does not. -/
def relate (s : SignedSets) (a b : Atom) (value : Bool) : Bool × SignedSets :=
  let (rootA, signA) := s.find a
  let (rootB, signB) := s.find b
  if rootA = rootB then ((signA ^^ signB) == value, s)
  else (true, s.merge rootA rootB (signA ^^ signB ^^ value))

/-- The equations which contradict those before them. A contradicting equation
is not added. -/
def contradictions (s : SignedSets) : List Equation → List Equation
  | [] => []
  | e :: es =>
    match s.relate e.a e.b e.value with
    | (true, t) => contradictions t es
    | (false, t) => e :: contradictions t es

def firstContradiction? (s : SignedSets) : List Equation → Option Equation
  | [] => none
  | e :: es =>
    match s.relate e.a e.b e.value with
    | (true, t) => firstContradiction? t es
    | (false, _) => some e

theorem firstContradiction?_eq_head? (s : SignedSets) (es : List Equation) :
    s.firstContradiction? es = (s.contradictions es).head? := by
  induction es generalizing s with
  | nil => rfl
  | cons e es ih =>
    unfold firstContradiction? contradictions
    split <;> simp_all

end SignedSets

end ShaDiff.TwoBit
