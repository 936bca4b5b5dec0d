import ShaDiff.Breach
import ShaDiff.Gate
import ShaDiff.Relation
import ShaDiff.Selection

/-!
# Propagation of one column

A column holds the conditions of the inputs and outputs of a gate. Every
selection of a pair for each input is evaluated in both instances, and it
survives if the outputs it produces are allowed. The refined condition of a
position holds the pairs seen there over all survivors, and a column without
survivor is contradictory. Positions are counted through the inputs and then
the outputs. The gate writes as many outputs as the column has, which need not
be its width.
-/

namespace ShaDiff.Column

/-- The most positions of a column, given by the widest addition. -/
def positionsMax : Nat := 16

structure Outcome where
  inputs : List Condition
  outputs : List Condition
  relations : List Relation
deriving DecidableEq

def image (g : Gate) (places : Nat) (ps : List Pair) : List Pair :=
  List.zipWith Pair.mk (g.write places (ps.map (·.first))) (g.write places (ps.map (·.second)))

theorem length_image (g : Gate) (places : Nat) (ps : List Pair) :
    (image g places ps).length = places := by
  simp [image, Gate.length_write]

def allowed : List Condition → List Pair → Bool
  | c :: cs, p :: ps => c.allows p && allowed cs ps
  | _, _ => true

/-- The selections of input pairs whose image is allowed, each with its image. -/
def survivors (g : Gate) (inputs outputs : List Condition) : List (List Pair) :=
  (selections (inputs.map (·.pairs))).filterMap fun ps =>
    let qs := image g outputs.length ps
    if allowed outputs qs then some (ps ++ qs) else none

def seen (survivors : List (List Pair)) (positions : Nat) : List Condition :=
  survivors.foldl (List.zipWith fun c p => c.union (.only p)) (List.replicate positions .never)

/-- Refines a column, or answers `none` if it is contradictory. -/
def propagate (g : Gate) (inputs outputs : List Condition) : Option Outcome :=
  let survivors := survivors g inputs outputs
  if survivors.isEmpty then none
  else
    let arity := inputs.length
    let positions := arity + outputs.length
    let refined := seen survivors positions
    some {
      inputs := refined.take arity
      outputs := refined.drop arity
      relations := Relation.all (survivors.map (·.map (·.differs))) positions }

def checked (g : Gate) (inputs outputs : List Condition) : Except Breach (Option Outcome) :=
  let positions := inputs.length + outputs.length
  if positions ≤ positionsMax then .ok (propagate g inputs outputs)
  else .error (.columnTooWide positions)

/-- Propagates a column that is written down, inputs and outputs apart. There is
no answer either where the texts are no column of the gate. -/
def propagateText? (g : Gate) (inputs outputs : String) : Option (String × String) := do
  let inputs ← Condition.parse? inputs
  let outputs ← Condition.parse? outputs
  guard (inputs.length = g.arity ∧ outputs.length = g.width)
  guard (inputs.length + outputs.length ≤ positionsMax)
  let outcome ← propagate g inputs outputs
  return (Condition.render outcome.inputs, Condition.render outcome.outputs)

end ShaDiff.Column
