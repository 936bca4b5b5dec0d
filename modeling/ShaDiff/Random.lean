/-!
# A small source of randomness

Only decisions draw at random, and all they draw is coin tosses, so any source
of tosses will do. The source used by default is a permuted congruential
generator with 64 bits of state and outputs of 32 bits.
-/

namespace ShaDiff

class Coin (ρ : Type) where
  toss : ρ → Bool × ρ

structure Pcg where
  state : UInt64
  increment : UInt64
deriving DecidableEq

namespace Pcg

def multiplier : UInt64 := 6364136223846793005

def defaultIncrement : UInt64 := 3215534235932367345

def unseeded : Pcg := ⟨0, 0⟩

def rotateRight (x amount : UInt32) : UInt32 := x >>> amount ||| x <<< (32 - amount)

def next32 (g : Pcg) : UInt32 × Pcg :=
  let old := g.state
  let shifted := (((old >>> 18) ^^^ old) >>> 27).toUInt32
  (rotateRight shifted (old >>> 59).toUInt32, { g with state := old * multiplier + g.increment })

/-- Two outputs, the first of them as the low half. -/
def next64 (g : Pcg) : UInt64 × Pcg :=
  let (low, g) := g.next32
  let (high, g) := g.next32
  (high.toUInt64 <<< 32 ||| low.toUInt64, g)

/-- True for the lower half of what 64 bits can be. -/
def toss (g : Pcg) : Bool × Pcg :=
  let (n, g) := g.next64
  (n < 0x8000000000000000, g)

instance : Coin Pcg := ⟨toss⟩

def ofSeed (seed : UInt64) : Pcg :=
  let (_, g) := next32 ⟨0, defaultIncrement⟩
  (next32 { g with state := g.state + seed }).2

def bytesOf (count : Nat) (n : Nat) : List Nat :=
  (List.range count).map fun i => (n >>> (8 * i)) % 256

def blocks : Nat → Pcg → List Nat × Pcg
  | 0, g => ([], g)
  | count + 1, g =>
    let (n, g) := g.next64
    let (rest, g) := blocks count g
    (bytesOf 8 n.toNat ++ rest, g)

/-- Random bytes. What is left over after blocks of eight takes the low bytes of
one more output, of 32 bits if those are enough. -/
def bytes (count : Nat) (g : Pcg) : List Nat × Pcg :=
  let (full, g) := blocks (count / 8) g
  let left := count % 8
  if left = 0 then (full, g)
  else if left ≤ 4 then
    let (n, g) := g.next32
    (full ++ bytesOf left n.toNat, g)
  else
    let (n, g) := g.next64
    (full ++ bytesOf left n.toNat, g)

end Pcg

end ShaDiff
