import ShaDiff.Condition

/-!
# Words as integers

The signed difference of a word is the sum of the signed differences of its
bits, each with the weight of its column. It is known when every bit is
grounded, and counts modulo two to the number of bits. Words are lists of
conditions here, least significant bit first, of at most 64 bits.
-/

namespace ShaDiff.Modular

def bitsMax : Nat := 64

def modulus (size : Nat) : Nat := 1 <<< min size bitsMax

/-- The signed difference of a word all of whose bits are grounded. -/
def signed? : List Condition → Option Int
  | [] => some 0
  | c :: cs => do
    let low ← c.signed?
    let high ← signed? cs
    return low + 2 * high

def toInteger? (word : List Condition) : Option Nat :=
  (signed? word).map fun d => (d % (modulus word.length : Int)).toNat

def support? : List Condition → Option Nat
  | [] => some 0
  | c :: cs => do
    let low ← c.signed?
    let high ← support? cs
    return (if low = 0 then 0 else 1) + 2 * high

def withSigns : List Condition → Nat → List Condition
  | [], _ => []
  | c :: cs, signs =>
    (if c.signed? = some 0 then c else if signs % 2 = 1 then .u else .n) ::
      withSigns cs (signs / 2)

/-- A grounded word of the given signed difference, which differs at the same
bits as the pattern.

With `p` the digits of positive sign and `s` the support, the signed difference
is `2p - s`. That leaves the top digit of `p` open, as its weight is half the
modulus, and there the sign of the pattern stays. -/
def ofInteger? (value : Nat) (pattern : List Condition) : Option (List Condition) := do
  let support ← support? pattern
  let m := modulus pattern.length
  let twice := (value % m + support) % m
  guard (twice % 2 = 0)
  let top := if pattern.getLast? = some .u then 1 <<< (pattern.length - 1) else 0
  let positive := twice / 2 ||| top
  guard (positive ||| support = support)
  return withSigns pattern positive

end ShaDiff.Modular
