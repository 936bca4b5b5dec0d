import ShaDiff.Bit
import ShaDiff.Literal
import Std.Data.TreeMap

/-!
# Partial valuations of the tracked atoms

An atom is tracked if it is a slot of some bit. Giving a tracked atom a value,
or taking it back, makes its bit dirty: the condition of the bit is due to be
read again. Atoms fixed for good are never given up.
-/

namespace ShaDiff

structure Place where
  bit : Bit
  slot : Nat
deriving DecidableEq

abbrev Tracking := Std.TreeMap Atom Place

namespace Tracking

/-- Tracks an atom, unless it is tracked already. Answers whether it was not. -/
def add (t : Tracking) (a : Atom) (p : Place) : Bool × Tracking :=
  if t.contains a then (false, t) else (true, t.insert a p)

def maxAtom (t : Tracking) : Atom := t.keys.getLastD 0

end Tracking

structure Valuation where
  values : Std.TreeMap Atom Bool := ∅
  fixed : Std.TreeSet Atom := ∅
  /-- The dirty bits, newest first, each once. -/
  dirty : List Bit := []
  dirtySet : Std.TreeSet Bit := ∅

namespace Valuation

def empty : Valuation := {}

def value? (v : Valuation) (a : Atom) : Option Bool := v.values[a]?

def literal? (v : Valuation) (l : Literal) : Option Bool :=
  (v.value? l.atom).map (· == l.polarity)

def hasDirty (v : Valuation) : Bool := !v.dirty.isEmpty

def markDirty (v : Valuation) (b : Bit) : Valuation :=
  if v.dirtySet.contains b then v
  else { v with dirty := b :: v.dirty, dirtySet := v.dirtySet.insert b }

/-- Makes a literal true. Answers whether its atom is tracked. -/
def assign (v : Valuation) (t : Tracking) (l : Literal) : Bool × Valuation :=
  match t[l.atom]? with
  | none => (false, v)
  | some p => (true, { v with values := v.values.insert l.atom l.polarity }.markDirty p.bit)

/-- Takes back the value of an atom. Answers whether the atom is tracked and not
fixed. -/
def unassign (v : Valuation) (t : Tracking) (a : Atom) : Bool × Valuation :=
  match t[a]? with
  | none => (false, v)
  | some p =>
    if v.fixed.contains a then (false, v)
    else (true, { v with values := v.values.erase a }.markDirty p.bit)

def setFixed (v : Valuation) (a : Atom) (isFixed : Bool) : Valuation :=
  { v with fixed := if isFixed then v.fixed.insert a else v.fixed.erase a }

/-- The dirty bits in the order they became so. None is left. -/
def takeDirty (v : Valuation) : List Bit × Valuation :=
  (v.dirty.reverse, { v with dirty := [], dirtySet := ∅ })

def sameValues (v w : Valuation) : Bool := v.values.toList == w.values.toList

end Valuation

end ShaDiff
