import ShaDiff.Propagator.Basic

/-!
# Propagation of marked columns and sums

Marked columns are propagated one at a time, and marked sums once no column is
left. A contradiction is blocked by the negations of all literals that are true
on the bits concerned. Otherwise each bit whose condition was refined is looked
at for literals the refined condition forces and that have no value yet; the
reason of such a literal is the literal and the same negations. The two-bit
equations of a column or sum are replaced by those just found.

Propagation stops at the first column or sum that has something for the host.
-/

namespace ShaDiff

inductive Finding
  | nothing
  /-- Literals to propagate, each with its reason. -/
  | literals (ls : List (Literal × Clause))
  /-- A clause that is false. -/
  | conflict (c : Clause)
deriving DecidableEq

namespace Propagator

variable {ρ : Type}

def trueLiterals (p : Propagator ρ) (bits : List Bit) : Clause :=
  .ofList (bits.flatMap fun b => (p.topology.slotAtoms b).filterMap fun a =>
    (p.value? a).map fun value => ⟨a, value⟩)

/-- The clause that is false for what is true on some bits. -/
def antecedent (p : Propagator ρ) (bits : List Bit) : Clause :=
  (p.trueLiterals bits).map .negate

def equationSlot? (p : Propagator ρ) : Option Nat :=
  if p.config.twoBit = .off then none else p.encoding.differenceSlot?

def equation? (p : Propagator ρ) (slot : Nat) (b c : Bit) (value : Bool) (antecedent : Clause) :
    Option Equation := do
  let x ← (p.topology.slots b)[slot]?.join
  let y ← (p.topology.slots c)[slot]?.join
  guard (x ≠ y)
  return .between x y value antecedent

def forced (p : Propagator ρ) (b : Bit) (refined : Condition) : List Literal :=
  if refined = p.condition b then []
  else (p.encoding.forced (p.topology.slots b) refined).filter fun l => (p.literal? l).isNone

/-- Whether the highest carry of an addition is left alone, since at the column
too few addends are present to produce it. -/
def suppresses (o : Operation) (inputBits : List Bit) : Bool :=
  match o.gate with
  | .add _ => inputBits.countP (!·.isZero) < 1 <<< (o.gate.width - 1)
  | _ => false

/-- A conflict, unless the clause would be empty. -/
def contradiction (p : Propagator ρ) (clause : Clause) : Finding × Propagator ρ :=
  if clause.isEmpty then (.nothing, p)
  else (.conflict clause, { p with counters.conflicts := p.counters.conflicts + 1 })

def withReasons (ls : List Literal) (antecedent : Clause) : Finding :=
  if ls.isEmpty then .nothing else .literals (ls.map fun l => (l, l :: antecedent))

def keepColumnEquations (p : Propagator ρ) (s : Site) (bits : List Bit)
    (relations : List Relation) (antecedent : Clause) : Propagator ρ :=
  match p.equationSlot? with
  | none => p
  | some slot =>
    let equations := relations.filterMap fun r => do
      p.equation? slot (← bits[r.first]?) (← bits[r.second]?) r.value antecedent
    { p with columnEquations := p.columnEquations.insert s equations }

def columnLiterals (p : Propagator ρ) (o : Operation) (inputBits outputBits : List Bit)
    (outcome : Column.Outcome) : List Literal :=
  let inputs := inputBits.zip outcome.inputs
  let outputs := outputBits.zip outcome.outputs
  let outputs := if suppresses o inputBits then outputs.drop 1 else outputs
  ((inputs ++ outputs).flatMap fun (b, c) => p.forced b c).eraseDups

def propagateColumn (p : Propagator ρ) (s : Site) : Finding × Propagator ρ :=
  let p := { p with counters.columns := p.counters.columns + 1 }
  match p.topology.operations[s.operation]? with
  | none => (.nothing, p)
  | some o =>
    let inputBits := p.topology.inputBits o s.column
    let outputBits := p.topology.outputBits o s.column
    let bits := inputBits ++ outputBits
    let key : ColumnKey := ⟨o.gate, inputBits.map p.condition, outputBits.map p.condition⟩
    let (outcome, columnCache) := p.columnCache.getOrInsert key fun k =>
      Column.propagate k.gate k.inputs k.outputs
    let p := { p with columnCache }
    let antecedent := p.antecedent bits
    match outcome with
    | none => p.contradiction antecedent
    | some outcome =>
      (withReasons (p.columnLiterals o inputBits outputBits outcome) antecedent,
        p.keepColumnEquations s bits outcome.relations antecedent)

def keepSumEquations (p : Propagator ρ) (sum : Nat) (words : List Nat)
    (relations : List Sum.WordRelation) (antecedent : Clause) : Propagator ρ :=
  match p.equationSlot? with
  | none => p
  | some slot =>
    let equations := relations.filterMap fun r => do
      p.equation? slot ⟨← words[r.first]?, r.column⟩ ⟨← words[r.second]?, r.column⟩ r.value
        antecedent
    { p with sumEquations := p.sumEquations.insert sum equations }

def refinedBits (words : List Nat) (refined : List (List Condition)) : List (Bit × Condition) :=
  (words.zip refined).flatMap fun (word, conditions) =>
    (conditions.zipIdx.map fun (c, column) => (⟨word, column⟩, c)).reverse

def firstForced (p : Propagator ρ) : List (Bit × Condition) → List Literal
  | [] => []
  | (b, c) :: rest =>
    match p.forced b c with
    | [] => p.firstForced rest
    | ls => ls

def propagateSum (p : Propagator ρ) (sum : Nat) : Finding × Propagator ρ :=
  match p.topology.sums[sum]? with
  | none => (.nothing, p)
  | some s =>
    let positive := s.positive.map p.wordConditions
    let negative := s.negative.map p.wordConditions
    let (derivation, sumCache) := p.sumCache.getOrInsert
      ⟨s.role, (positive ++ negative).flatten⟩ fun _ => Sum.propagate positive negative
    let p := { p with sumCache }
    match derivation with
    | .skipped => (.nothing, p)
    | .contradiction => p.contradiction (p.antecedent (s.words.flatMap p.topology.wordBits))
    | .refined refined relations =>
      let antecedent := p.antecedent (s.words.flatMap p.topology.wordBits)
      let p := p.keepSumEquations sum s.words relations antecedent
      match p.firstForced (refinedBits s.words refined) with
      | [] => (.nothing, p)
      | ls => (withReasons ls antecedent,
          { p with counters.derivations := p.counters.derivations + 1 })

/-- Propagates marked columns until one has something for the host. One turn
more than there are marked columns leaves none. -/
def propagateColumns : (turns : Nat) → Propagator ρ → Finding × Propagator ρ
  | 0, p => (.nothing, p)
  | turns + 1, p =>
    match p.marks.nextColumn with
    | (none, marks) => (.nothing, { p with marks })
    | (some s, marks) =>
      match { p with marks }.propagateColumn s with
      | (.nothing, p) => propagateColumns turns p
      | found => found

def propagateSums : (turns : Nat) → Propagator ρ → Finding × Propagator ρ
  | 0, p => (.nothing, p)
  | turns + 1, p =>
    match p.marks.nextSum with
    | (none, _) => (.nothing, p)
    | (some sum, marks) =>
      match { p with marks }.propagateSum sum with
      | (.nothing, p) => propagateSums turns p
      | found => found

/-- Propagates what is marked. Without wordwise propagation the marks of sums
are dropped once no column is left. -/
def findPropagation (p : Propagator ρ) : Finding × Propagator ρ :=
  match propagateColumns (p.marks.marked.size + 1) p with
  | (.nothing, p) =>
    if p.config.wordwise then propagateSums p.marks.sums.length p
    else (.nothing, { p with marks := p.marks.clearSums })
  | found => found

end Propagator

end ShaDiff
