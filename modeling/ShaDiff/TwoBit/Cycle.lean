import ShaDiff.Equation

/-!
# Inconsistent collections by cycles

Atoms are the vertices of a graph and equations its edges. A cycle whose values
sum to one is inconsistent. Equations are added in turn: first a breadth-first
search looks for a path between the two atoms whose values sum to the opposite
of the equation's value. Such a path closes a shortest inconsistent cycle
through the equation, which then stays out, so the graph is always consistent.
-/

namespace ShaDiff.TwoBit.Cycle

/-- The edges of a graph, newest first, at most one between two atoms. -/
abbrev Graph := List Equation

/-- The edges at an atom with their other ends. Edges whose lesser end the atom
is come first. -/
def Graph.around (g : Graph) (v : Atom) : List (Atom × Equation) :=
  (g.filter (·.a == v)).map (fun e => (e.b, e)) ++
    (g.filter (·.b == v)).map (fun e => (e.a, e))

/-- An atom reached from the start, the sum of the values on the way, and the
equations of the way from its last one. -/
structure Visit where
  vertex : Atom
  sum : Bool
  way : List Equation

def Visit.state (v : Visit) : Atom × Bool := (v.vertex, v.sum)

def expand (g : Graph) (seen : List (Atom × Bool)) (visits : List Visit) :
    List (Atom × Bool) × List Visit :=
  let further := visits.flatMap fun v => (g.around v.vertex).map fun (w, e) =>
    (⟨w, v.sum ^^ e.value, e :: v.way⟩ : Visit)
  let (seen, fresh) := further.foldl (fun (seen, fresh) v =>
    if seen.contains v.state then (seen, fresh) else (v.state :: seen, v :: fresh)) (seen, [])
  (seen, fresh.reverse)

def search (g : Graph) (goal : Atom × Bool) :
    (rounds : Nat) → List (Atom × Bool) → List Visit → Option (List Equation)
  | 0, _, _ => none
  | rounds + 1, seen, visits =>
    match visits.find? (·.state == goal) with
    | some v => some v.way
    | none =>
      if visits.isEmpty then none
      else
        let (seen, visits) := expand g seen visits
        search g goal rounds seen visits

/-- A shortest way whose values sum to `sum`. Each round but the last finds a
state not seen before, and a graph has two states for each end of an edge. -/
def Graph.way? (g : Graph) (a b : Atom) (sum : Bool) : Option (List Equation) :=
  search g (b, sum) (4 * g.length + 3) [(a, false)] [⟨a, false, []⟩]

def parallel (k e : Equation) : Bool := k.a == e.a && k.b == e.b || k.a == e.b && k.b == e.a

/-- Adds an edge. Of two equations between the same atoms the one with fewer
literals in its antecedent stays, at the place of the older one. -/
def Graph.keep (g : Graph) (e : Equation) : Graph :=
  if g.any (parallel · e) then
    g.map fun k => if parallel k e && e.antecedent.length < k.antecedent.length then e else k
  else e :: g

/-- Adds an equation, or answers the blocking clause of the cycle it closes. -/
def Graph.add (g : Graph) (e : Equation) : Option Clause × Graph :=
  if e.a = e.b then
    (if e.value then some (Equation.blockingClause [e]) else none, g)
  else
    match g.way? e.a e.b (!e.value) with
    | some way => (some (Equation.blockingClause (e :: way)), g)
    | none => (none, g.keep e)

def clauses : Graph → List Equation → List Clause
  | _, [] => []
  | g, e :: es =>
    match g.add e with
    | (some c, g) => c :: clauses g es
    | (none, g) => clauses g es

def shortestClause? (es : List Equation) : Option Clause :=
  firstLeast (fun c d => c.length < d.length) (clauses [] es)

end ShaDiff.TwoBit.Cycle
