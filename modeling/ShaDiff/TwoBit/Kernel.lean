import ShaDiff.BitRow
import ShaDiff.Equation

/-!
# Inconsistent collections by elimination

Each equation is a row over GF(2) with a one at the columns of its two atoms. A
collection of equations whose rows sum to zero is inconsistent if its values
sum to one. Rows carry a second part, which records of which equations a row
is the sum; eliminating the atoms leaves rows that select the collections of a
basis of all that cancel.
-/

namespace ShaDiff.TwoBit.Kernel

def atoms (es : List Equation) : List Atom := (es.flatMap fun e => [e.a, e.b]).eraseDups

/-- The row of each equation: its atoms, and then its own place. -/
def rows (es : List Equation) : List BitRow :=
  let atoms := atoms es
  let width := atoms.length
  es.zipIdx.map fun (e, i) =>
    (((BitRow.zeros (width + es.length)).flip (atoms.idxOf e.a)).flip (atoms.idxOf e.b)).set
      (width + i) true

def cancel (column : Nat) (pivot row : BitRow) : BitRow :=
  if row.get column then row.xor pivot else row

/-- Clears a column: its first row with a one is taken out and added to all
others with a one. The first of all rows takes the place that falls free. -/
def sweep (rows : List BitRow) (column : Nat) : List BitRow :=
  let before := rows.takeWhile fun r => !r.get column
  match rows.dropWhile fun r => !r.get column with
  | [] => rows
  | pivot :: after =>
    let others := match before with
      | [] => after
      | row :: between => between ++ row :: after
    others.map (cancel column pivot)

def selected (width : Nat) (row : BitRow) : List Nat :=
  (row.ones.filter (width ≤ ·)).map (· - width)

def parity (es : List Equation) (selected : List Nat) : Bool :=
  selected.foldl (fun p i => p ^^ (es[i]?.map (·.value)).getD false) false

/-- The inconsistent collections of a basis, each as the ascending places of its
equations. -/
def inconsistentSubsets (es : List Equation) : List (List Nat) :=
  let width := (atoms es).length
  let remaining := (List.range width).foldl sweep (rows es)
  (remaining.map (selected width)).filter (parity es)

def blockingClause (es : List Equation) (selected : List Nat) : Clause :=
  Equation.blockingClause (selected.filterMap (es[·]?))

/-- The blocking clause of a collection of fewest equations, and among those one
with fewest literals. -/
def shortestClause? (es : List Equation) : Option Clause :=
  let found := (inconsistentSubsets es).map fun s => (s.length, blockingClause es s)
  (firstLeast (fun x y => x.1 < y.1 || x.1 == y.1 && x.2.length < y.2.length) found).map (·.2)

end ShaDiff.TwoBit.Kernel
