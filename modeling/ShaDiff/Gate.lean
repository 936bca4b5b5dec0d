/-!
# Gates

A gate is the function an operation of the step function applies at every
column. Additions are sliced into columns by keeping the carries as words of
their own: the gate of an addition counts its inputs, carries included, and
writes the count in binary with the most significant digit first.
-/

namespace ShaDiff

inductive Gate
  | xor3
  | maj
  | ch
  | add (inputs : Nat)
deriving DecidableEq

namespace Gate

def addInputsMax : Nat := 12

def arity : Gate → Nat
  | xor3 | maj | ch => 3
  | add n => n

/-- The number of outputs. An addition has the digits its largest sum needs. -/
def width : Gate → Nat
  | xor3 | maj | ch => 1
  | add 0 => 0
  | add (n + 1) => (n + 1).log2 + 1

def digits : (width : Nat) → (number : Nat) → List Bool
  | 0, _ => []
  | width + 1, number => number.testBit width :: digits width number

theorem length_digits (width number : Nat) : (digits width number).length = width := by
  induction width with
  | zero => rfl
  | succ width ih => simp [digits, ih]

/-- One bit at the first of `places`, and zeros at the places after it. -/
def leading (b : Bool) : (places : Nat) → List Bool
  | 0 => []
  | places + 1 => b :: List.replicate places false

theorem length_leading (b : Bool) (places : Nat) : (leading b places).length = places := by
  cases places <;> simp [leading]

/-- What the gate writes to a number of output places. Other gates than additions
read three inputs and write one bit. -/
def write (g : Gate) (places : Nat) (inputs : List Bool) : List Bool :=
  let a := inputs.getD 0 false
  let b := inputs.getD 1 false
  let c := inputs.getD 2 false
  match g with
  | xor3 => leading (a ^^ b ^^ c) places
  | maj => leading (a && b || a && c || b && c) places
  | ch => leading (if a then b else c) places
  | add _ => digits places (inputs.count true)

theorem length_write (g : Gate) (places : Nat) (inputs : List Bool) :
    (g.write places inputs).length = places := by
  cases g <;> simp [write, length_digits, length_leading]

def evaluate (g : Gate) (inputs : List Bool) : List Bool := g.write g.width inputs

theorem length_evaluate (g : Gate) (inputs : List Bool) :
    (g.evaluate inputs).length = g.width :=
  g.length_write g.width inputs

def name : Gate → String
  | xor3 => "xor3"
  | maj => "maj"
  | ch => "ch"
  | add _ => "add"

def label : Gate → String
  | add n => s!"add{n}"
  | g => g.name

def names : List String := ["xor3", "maj", "ch", "add"]

def ofName? (name : String) (inputs : Nat) : Option Gate :=
  if name = "add" then
    if 1 ≤ inputs ∧ inputs ≤ addInputsMax then some (add inputs) else none
  else if inputs = 3 then
    if name = "xor3" then some xor3
    else if name = "maj" then some maj
    else if name = "ch" then some ch
    else none
  else none

def code : Gate → Nat
  | xor3 => 0
  | maj => 1
  | ch => 2
  | add n => n + 3

theorem code_inj {g h : Gate} (eq : g.code = h.code) : g = h := by
  cases g <;> cases h <;> grind [code]

instance : Ord Gate := ⟨compareOn code⟩
instance : Std.TransOrd Gate := inferInstanceAs (Std.TransCmp (compareOn code))
instance : Std.LawfulEqOrd Gate where
  eq_of_compare h := code_inj (Std.LawfulEqOrd.eq_of_compare h)

end Gate

end ShaDiff
