import ShaDiff.Propagator.Basic
import ShaDiff.Rule
import ShaDiff.Topology.Build

/-!
# Configuring a propagator

A propagator takes the entries of a configuration one by one, or a text of one
entry a line. A rule database may be read at any time.
-/

namespace ShaDiff.Propagator

variable {ρ : Type}

/-- Takes an entry. What was valued before the topology was built is dropped. -/
def configure (p : Propagator ρ) (name : String) (value : Int) :
    Except Breach (Except Fault Unit × Propagator ρ) := do
  let (result, topology) ← p.topology.enter name value
  let valuation := if p.isBuilt || !topology.isBuilt then p.valuation else .empty
  return (result, { p with topology, valuation })

/-- The entry of a line, which may be marked as a comment by a leading `c`.
There is none where there is no name. -/
def entryOfLine (number : Nat) (line : Text.Line) : Except Fault (Option (String × Int)) :=
  match line with
  | none => .error (.line number)
  | some s =>
    let fields := Text.fields s
    match if fields.head? = some "c" then fields.drop 1 else fields with
    | [] => .ok none
    | [name, value] =>
      match Text.signed? 64 value with
      | some value => .ok (some (name, value))
      | none => .error (.line number)
    | _ => .error (.line number)

def readLines (p : Propagator ρ) (count : Nat) :
    List (Text.Line × Nat) → Except Breach (Except Fault Nat × Propagator ρ)
  | [] => .ok (.ok count, p)
  | (line, number) :: rest =>
    match entryOfLine number line with
    | .error fault => .ok (.error fault, p)
    | .ok none => p.readLines count rest
    | .ok (some (name, value)) =>
      match p.configure name value with
      | .error breach => .error breach
      | .ok (.error fault, p) => .ok (.error fault, p)
      | .ok (.ok (), p) => p.readLines (count + 1) rest

/-- Reads a configuration. Answers the number of its entries, or the first
fault. -/
def readConfiguration (p : Propagator ρ) (lines : List Text.Line) :
    Except Breach (Except Fault Nat × Propagator ρ) :=
  p.readLines 0 (lines.zipIdx 1)

def readRules (p : Propagator ρ) (lines : List Text.Line) : Except Fault Nat × Propagator ρ :=
  let (result, columnCache) := Rule.read p.columnCache lines
  (result, { p with columnCache })

end ShaDiff.Propagator
