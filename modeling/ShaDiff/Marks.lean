import Std.Data.TreeSet

/-!
# Marks

A column of an operation, or a sum, is marked while it awaits propagation. The
column marked last is taken first and otherwise marks are taken in the order
they were made. A column taken out of turn leaves its place in the queue, which
counts again if the column is marked anew before that place comes up.
-/

namespace ShaDiff

structure Site where
  operation : Nat
  column : Nat
deriving DecidableEq

namespace Site

instance : Ord Site := ⟨compareLex (compareOn operation) (compareOn column)⟩
instance : Std.TransOrd Site :=
  inferInstanceAs (Std.TransCmp (compareLex (compareOn operation) (compareOn column)))
instance : Std.LawfulEqOrd Site where
  eq_of_compare {s t} h := by
    have h' := Ordering.then_eq_eq.1 (show ((compare s.operation t.operation).then _) = _ from h)
    rcases s with ⟨o, i⟩
    rcases t with ⟨p, j⟩
    rw [Site.mk.injEq]
    exact ⟨Std.LawfulEqOrd.eq_of_compare h'.1, Std.LawfulEqOrd.eq_of_compare h'.2⟩

end Site

structure Marks where
  /-- The older places of the queue, oldest first. -/
  front : List Site := []
  /-- The newer places of the queue, newest first. -/
  back : List Site := []
  /-- The marked columns. All have a place in the queue. -/
  marked : Std.TreeSet Site := ∅
  /-- The column marked last, unless a column was taken since. -/
  last? : Option Site := none
  /-- The marked sums, in the order of their marks. -/
  sums : List Nat := []

namespace Marks

def empty : Marks := {}

/-- The places of the queue, oldest first. -/
def queue (m : Marks) : List Site := m.front ++ m.back.reverse

def hasColumns (m : Marks) : Bool := !m.marked.isEmpty

def hasSums (m : Marks) : Bool := !m.sums.isEmpty

def markColumn (m : Marks) (s : Site) : Marks :=
  let m := { m with last? := some s }
  if m.marked.contains s then m
  else { m with back := s :: m.back, marked := m.marked.insert s }

def markSum (m : Marks) (sum : Nat) : Marks :=
  if m.sums.contains sum then m else { m with sums := m.sums ++ [sum] }

def firstMarked (marked : Std.TreeSet Site) : List Site → Option (Site × List Site)
  | [] => none
  | s :: rest => if marked.contains s then some (s, rest) else firstMarked marked rest

def nextQueued (m : Marks) : Option Site × Marks :=
  match firstMarked m.marked m.front with
  | some (s, rest) => (some s, { m with front := rest, marked := m.marked.erase s })
  | none =>
    match firstMarked m.marked m.back.reverse with
    | some (s, rest) => (some s, { m with front := rest, back := [], marked := m.marked.erase s })
    | none => (none, { m with front := [], back := [] })

def nextColumn (m : Marks) : Option Site × Marks :=
  let untouched := { m with last? := none }
  match m.last? with
  | some s =>
    if m.marked.contains s then (some s, { untouched with marked := m.marked.erase s })
    else untouched.nextQueued
  | none => untouched.nextQueued

def nextSum (m : Marks) : Option Nat × Marks :=
  match m.sums with
  | [] => (none, m)
  | sum :: rest => (some sum, { m with sums := rest })

def clearSums (m : Marks) : Marks := { m with sums := [] }

end Marks

end ShaDiff
