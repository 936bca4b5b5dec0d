import ShaDiff.Breach
import ShaDiff.Entry
import ShaDiff.Topology.Entering
import ShaDiff.Topology.Round

/-!
# Building the topology

The order of a configuration builds the topology from the words named so far.
Words that need no naming are added without atoms. If a word is missing, what
was built up to it stays in place: a later order adds its steps after those
there are, and rounds are looked up among all of them.
-/

namespace ShaDiff.Topology

/-- Looks up the words of a round in the order of their roles, and adds those
that need no naming. -/
def fillStep (t : Topology) (round : Int) :
    List Role → List (Role × Nat) → Except Fault (List (Role × Nat)) × Topology
  | [], words => (.ok words.reverse, t)
  | role :: roles, words =>
    match t.named[(⟨role, round⟩ : Word)]? with
    | some index => t.fillStep round roles ((role, index) :: words)
    | none =>
      if role.isRequired then (.error (.missingWord role round), t)
      else
        let index := t.words.size
        { t with words := t.words.push ⟨role, round⟩ }.fillStep round roles
          ((role, index) :: words)

def rounds (order : Nat) : List Int := (List.range (order + 4)).map fun i : Nat => firstRound + i

def addSteps (t : Topology) (order : Nat) : List Int → Except Fault Unit × Topology
  | [] => (.ok (), t)
  | round :: later =>
    match t.fillStep round (Role.configurable.filter (·.applicable round order)) [] with
    | (.error fault, t) => (.error fault, t)
    | (.ok words, t) => { t with steps := t.steps.push ⟨round, words⟩ }.addSteps order later

def stepWord? (t : Topology) (role : Role) (round : Int) : Option Nat :=
  (t.stepAt? round).bind (·.word? role)

/-- The first word a round needs that its steps do not have. -/
def absentWord? (t : Topology) (round : Int) : Option (Role × Int) :=
  (wordsOfRound round).findSome? fun (role, back) =>
    if (t.stepWord? role (round - back)).isNone then some (role, round - back) else none

def addRounds (t : Topology) : List Int → Except Breach Topology
  | [] => .ok t
  | round :: later =>
    match t.absentWord? round with
    | some (role, round) => .error (.noWord role round)
    | none =>
      let word (role : Role) (back : Nat) := (t.stepWord? role (round - back)).getD zeroWord
      addRounds { t with
        operations := t.operations ++ operationsOfRound word t.wordSize round
        sums := t.sums ++ sumsOfRound word round } later

def addSite (readers : Std.TreeMap Bit Readers) (s : Site) (b : Bit) : Std.TreeMap Bit Readers :=
  if b.isZero then readers
  else
    let r := readers.getD b {}
    if r.sites.contains s then readers
    else readers.insert b { r with sites := r.sites ++ [s] }

def addSum (readers : Std.TreeMap Bit Readers) (sum : Nat) (b : Bit) : Std.TreeMap Bit Readers :=
  let r := readers.getD b {}
  if r.sums.contains sum then readers
  else readers.insert b { r with sums := r.sums ++ [sum] }

def operationBits (t : Topology) : List (Site × Bit) :=
  t.operations.toList.zipIdx.flatMap fun (o, operation) =>
    (List.range t.wordSize).flatMap fun column =>
      (t.inputBits o column ++ t.outputBits o column).map fun b => (⟨operation, column⟩, b)

def sumBits (t : Topology) : List (Nat × Bit) :=
  t.sums.toList.zipIdx.flatMap fun (s, sum) =>
    s.words.flatMap fun word => (t.wordBits word).map fun b => (sum, b)

def addReaders (t : Topology) : Topology :=
  let readers := t.operationBits.foldl (fun r (s, b) => addSite r s b) t.readers
  { t with readers := t.sumBits.foldl (fun r (s, b) => addSum r s b) readers }

def build (t : Topology) (order : Nat) : Except Breach (Except Fault Unit × Topology) :=
  if t.zeroAtoms.isNone then .ok (.error .missingZero, t)
  else
    match t.named.keys.find? fun w => !w.role.applicable w.round order with
    | some w => .ok (.error (.roundOutOfRange w.round), t)
    | none =>
      match t.addSteps order (rounds order) with
      | (.error fault, t) => .ok (.error fault, t)
      | (.ok (), t) => do
        let t ← t.addRounds ((List.range order).map Int.ofNat)
        return (.ok (), { t.addReaders with order := some order })

def enter (t : Topology) (name : String) (value : Int) :
    Except Breach (Except Fault Unit × Topology) :=
  if t.isBuilt then .ok (.error .alreadyBuilt, t)
  else
    match Entry.parse name with
    | .error fault => .ok (.error fault, t)
    | .ok .order =>
      if 1 ≤ value ∧ value ≤ orderMax then t.build value.toNat
      else .ok (.error (.invalidOrder value), t)
    | .ok .zero =>
      match t.enterZero value with
      | .error fault => .ok (.error fault, t)
      | .ok t => .ok (.ok (), t)
    | .ok (.bit role round column slot) =>
      .ok (t.enterBit name role round column slot value)

end ShaDiff.Topology
