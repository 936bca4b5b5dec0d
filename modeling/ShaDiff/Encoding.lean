import ShaDiff.Condition
import ShaDiff.Literal

/-!
# Encodings of a bit as boolean variables

An encoding represents a bit by a few variables, its slots. It is given by a
table of regions: the region of a literal is the condition that is left when
the literal is true. Reading a valuation, the closure of a condition and the
literals a condition forces are all taken from that table.

- `oneBit` has slots for the first value, the second value and the difference.
- `fourBit` has an indicator for each pair, in the order of a mask.
- `li2024` has a slot for the difference and one for its sign. That the sign is
  not raised without a difference is left to the formula.
-/

namespace ShaDiff

inductive Encoding
  | oneBit
  | fourBit
  | li2024
deriving DecidableEq

/-- The atoms of the slots of a bit, where a slot may go without. -/
abbrev Slots := List (Option Atom)

namespace Encoding

structure Region where
  slot : Nat
  polarity : Bool
  condition : Condition
deriving DecidableEq

def regions : Encoding → List Region
  | oneBit =>
    [⟨0, false, ⟨0b0101⟩⟩, ⟨0, true, ⟨0b1010⟩⟩,
     ⟨1, false, ⟨0b0011⟩⟩, ⟨1, true, ⟨0b1100⟩⟩,
     ⟨2, false, .same⟩, ⟨2, true, .x⟩]
  | fourBit =>
    [⟨0, false, ⟨0b1110⟩⟩, ⟨0, true, ⟨0b0001⟩⟩,
     ⟨1, false, ⟨0b1101⟩⟩, ⟨1, true, ⟨0b0010⟩⟩,
     ⟨2, false, ⟨0b1011⟩⟩, ⟨2, true, ⟨0b0100⟩⟩,
     ⟨3, false, ⟨0b0111⟩⟩, ⟨3, true, ⟨0b1000⟩⟩]
  | li2024 =>
    [⟨0, false, .same⟩, ⟨0, true, .x⟩,
     ⟨1, false, ⟨0b1101⟩⟩, ⟨1, true, .u⟩]

def slots : Encoding → Nat
  | oneBit => 3
  | fourBit => 4
  | li2024 => 2

theorem slot_lt_slots (e : Encoding) : ∀ r ∈ e.regions, r.slot < e.slots := by
  cases e <;> decide

def differenceSlot? : Encoding → Option Nat
  | oneBit => some 2
  | fourBit => none
  | li2024 => some 0

def Region.holds (r : Region) (values : List (Option Bool)) : Bool :=
  values[r.slot]?.join == some r.polarity

/-- The condition of a bit under a valuation of its slots: what the regions of
all true literals have in common. -/
def refresh (e : Encoding) (values : List (Option Bool)) : Condition :=
  e.regions.foldr (fun r c => if r.holds values then r.condition.inter c else c) .any

/-- The least condition the encoding can represent that contains `c`. -/
def closure (e : Encoding) (c : Condition) : Condition :=
  e.regions.foldr (fun r d => if c.subset r.condition then r.condition.inter d else d) .any

/-- Every condition that is its own closure, the contradiction apart. -/
def alphabet (e : Encoding) : List Condition :=
  ((List.range 16).map fun m => (⟨BitVec.ofNat 4 m⟩ : Condition)).filter fun c =>
    c != .never && e.closure c == c

def Region.literal? (r : Region) (atoms : Slots) : Option Literal :=
  atoms[r.slot]?.join.map fun a => ⟨a, r.polarity⟩

/-- The literals that hold wherever `c` does, in the order of the regions. A
contradiction forces nothing. -/
def forced (e : Encoding) (atoms : Slots) (c : Condition) : List Literal :=
  if c = .never then []
  else (e.regions.filter fun r => c.subset r.condition).filterMap (·.literal? atoms)

def name : Encoding → String
  | oneBit => "1-bit"
  | fourBit => "4-bit"
  | li2024 => "li2024"

def all : List Encoding := [oneBit, fourBit, li2024]

def index : Encoding → Nat
  | oneBit => 0
  | fourBit => 1
  | li2024 => 2

instance : LE Encoding := ⟨fun e f => e.index ≤ f.index⟩
instance (e f : Encoding) : Decidable (e ≤ f) := inferInstanceAs (Decidable (e.index ≤ f.index))

end Encoding

end ShaDiff
