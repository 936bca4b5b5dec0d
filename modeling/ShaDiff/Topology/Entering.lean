import ShaDiff.Fault
import ShaDiff.Topology.Basic

/-!
# Entering bits and the zero word

An entry gives atoms to the slots of a bit, or to the zero word. The words named
by entries are added as they come. An atom is given once: the slots of an entry
are filled in turn up to the first atom that is taken, and stay filled.
-/

namespace ShaDiff.Topology

def atomMax : Nat := (1 <<< 31) - 1

def consecutive (first : Int) (count : Nat) : Except Fault (List Atom) :=
  if 1 ≤ first ∧ first + count - 1 ≤ atomMax then
    .ok ((List.range count).map (first.toNat + ·))
  else .error (.invalidIdentifier first)

def enterZero (t : Topology) (first : Int) : Except Fault Topology := do
  let atoms ← consecutive first t.encoding.slots
  match atoms.find? t.tracked.contains with
  | some a => .error (.duplicateAtom a)
  | none => .ok { t with zeroAtoms := some atoms }

/-- The slots an entry of a bit fills, if it is an entry for the topology. -/
def slotsFilled (t : Topology) (name : String) (role : Role) (round : Int) (column : Nat)
    (slot : Option Nat) (first : Int) : Except Fault (List (Nat × Atom)) := do
  if round < firstRound ∨ orderMax ≤ round ∨ (!role.isRegister ∧ round < 0) then
    throw (.roundOutOfRange round)
  if t.wordSize ≤ column then throw (.columnOutOfRange column)
  match slot with
  | some slot =>
    if t.encoding ≠ .li2024 then throw (.malformedName name)
    return (← consecutive first 1).map fun a => (slot, a)
  | none => return (← consecutive first t.encoding.slots).zipIdx.map fun (a, slot) => (slot, a)

/-- The index of a word, which is added unless an entry has named it before. -/
def nameWord (t : Topology) (w : Word) : Nat × Topology :=
  match t.named[w]? with
  | some index => (index, t)
  | none =>
    let index := t.words.size
    (index, { t with words := t.words.push w, named := t.named.insert w index })

def setSlot (t : Topology) (p : Place) (a : Atom) : Topology :=
  let slots := t.atoms.getD p.bit (List.replicate t.encoding.slots none)
  { t with
    atoms := t.atoms.insert p.bit (slots.set p.slot (some a))
    tracked := t.tracked.insert a p }

/-- Fills slots of a bit in turn, up to the first atom that is taken. -/
def fillSlots (t : Topology) (b : Bit) : List (Nat × Atom) → Except Fault Unit × Topology
  | [] => (.ok (), t)
  | (slot, a) :: rest =>
    if t.isZeroAtom a || t.tracked.contains a then (.error (.duplicateAtom a), t)
    else (t.setSlot ⟨b, slot⟩ a).fillSlots b rest

def enterBit (t : Topology) (name : String) (role : Role) (round : Int) (column : Nat)
    (slot : Option Nat) (first : Int) : Except Fault Unit × Topology :=
  match t.slotsFilled name role round column slot first with
  | .error fault => (.error fault, t)
  | .ok filled =>
    let (word, t) := t.nameWord ⟨role, round⟩
    t.fillSlots ⟨word, column⟩ filled

end ShaDiff.Topology
