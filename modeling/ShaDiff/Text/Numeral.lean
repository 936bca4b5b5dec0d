/-!
# Integers in decimal

An integer is written with ASCII digits, leading zeros allowed, after a sign
that may be left out. A minus sign is for signed integers only, and a number
out of the range asked for is refused.
-/

namespace ShaDiff.Text

def digits? (cs : List Char) : Option Nat :=
  if cs.isEmpty || !cs.all Char.isDigit then none
  else some (cs.foldl (fun n c => 10 * n + (c.toNat - '0'.toNat)) 0)

def unsigned? (bits : Nat) (s : String) : Option Nat := do
  let n ← match s.toList with
    | '+' :: cs => digits? cs
    | cs => digits? cs
  guard (n < 1 <<< bits)
  return n

def signed? (bits : Nat) (s : String) : Option Int := do
  let i ← match s.toList with
    | '-' :: cs => (digits? cs).map fun n => -(n : Int)
    | '+' :: cs => (digits? cs).map Int.ofNat
    | cs => (digits? cs).map Int.ofNat
  let half : Nat := 1 <<< (bits - 1)
  guard (-(half : Int) ≤ i ∧ i < half)
  return i

end ShaDiff.Text
