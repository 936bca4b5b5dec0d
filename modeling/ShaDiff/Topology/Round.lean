import ShaDiff.Topology.Basic

/-!
# The step function

What round `i` of the step function computes, with `A`, `E` and `W` of earlier
rounds counted back from `i`:

- `S0` is the exclusive or of `A` one back, rotated by 2, 13 and 22;
- `S1` is the exclusive or of `E` one back, rotated by 6, 11 and 25;
- `MAJ` is the majority of `A` one, two and three back;
- `CH` chooses by `E` one back between `E` two and three back;
- `T` is `E` four back plus `S1`, `CH`, `K` and `W`;
- `E` is `A` four back plus `T`, and `A` is `T` plus `S0` and `MAJ`.

From round 16 on the message is extended as well:

- `s0` is the exclusive or of `W` fifteen back, rotated by 7 and 18 and shifted
  by 3; `s1` is that of `W` two back, rotated by 17 and 19 and shifted by 10;
- `W` is `s1` plus `W` seven back, `s0` and `W` sixteen back.

An addition reads, beside its addends, the carry words it writes, raised by one
and by two columns. It is recorded once more as a sum of words. In what follows
`word` gives the word of a role so many rounds back.
-/

namespace ShaDiff.Topology

/-- The words a round reads or writes, each with the number of rounds back. -/
def wordsOfRound (round : Int) : List (Role × Nat) :=
  [(.a, 1), (.a, 2), (.a, 3), (.a, 4), (.e, 1), (.e, 2), (.e, 3), (.e, 4),
   (.a, 0), (.e, 0), (.w, 0), (.t, 0), (.k, 0),
   (.bigSigma0, 0), (.bigSigma1, 0), (.maj, 0), (.ch, 0),
   (.tCarry, 0), (.tCarry2, 0), (.eCarry, 0), (.aCarry, 0), (.aCarry2, 0)] ++
  if 16 ≤ round then
    [(.w, 2), (.w, 7), (.w, 15), (.w, 16),
     (.smallSigma0, 0), (.smallSigma1, 0), (.wCarry, 0), (.wCarry2, 0)]
  else []

def rotation (size : Nat) (w amount : Nat) : View := .rotated w (amount % size)

section

variable (word : Role → (back : Nat) → Nat) (size : Nat) (round : Int)

def xorOf (role : Role) (views : List View) : Operation :=
  ⟨.xor3, round, role, views, [.whole (word role 0)]⟩

def functionOperations : List Operation :=
  let a := word .a
  let e := word .e
  [xorOf word round .bigSigma0
    [rotation size (a 1) 2, rotation size (a 1) 13, rotation size (a 1) 22],
   xorOf word round .bigSigma1
    [rotation size (e 1) 6, rotation size (e 1) 11, rotation size (e 1) 25],
   ⟨.maj, round, .maj, [.whole (a 1), .whole (a 2), .whole (a 3)], [.whole (word .maj 0)]⟩,
   ⟨.ch, round, .ch, [.whole (e 1), .whole (e 2), .whole (e 3)], [.whole (word .ch 0)]⟩]

def messageOperations : List Operation :=
  let w := word .w
  let carry := word .wCarry 0
  let carry2 := word .wCarry2 0
  [xorOf word round .smallSigma0
    [rotation size (w 15) 7, rotation size (w 15) 18, .lowered (w 15) 3],
   xorOf word round .smallSigma1
    [rotation size (w 2) 17, rotation size (w 2) 19, .lowered (w 2) 10],
   ⟨.add 6, round, .w,
    [.whole (word .smallSigma1 0), .whole (w 7), .whole (word .smallSigma0 0), .whole (w 16),
     .raised carry 1, .raised carry2 2],
    [.whole carry2, .whole carry, .whole (w 0)]⟩]

def registerOperations : List Operation :=
  let t := word .t 0
  let tCarry := word .tCarry 0
  let tCarry2 := word .tCarry2 0
  let eCarry := word .eCarry 0
  let aCarry := word .aCarry 0
  let aCarry2 := word .aCarry2 0
  [⟨.add 7, round, .t,
    [.whole (word .e 4), .whole (word .bigSigma1 0), .whole (word .ch 0), .whole (word .k 0),
     .whole (word .w 0), .raised tCarry 1, .raised tCarry2 2],
    [.whole tCarry2, .whole tCarry, .whole t]⟩,
   ⟨.add 3, round, .e,
    [.whole (word .a 4), .whole t, .raised eCarry 1],
    [.whole eCarry, .whole (word .e 0)]⟩,
   ⟨.add 5, round, .a,
    [.whole t, .whole (word .bigSigma0 0), .whole (word .maj 0),
     .raised aCarry 1, .raised aCarry2 2],
    [.whole aCarry2, .whole aCarry, .whole (word .a 0)]⟩]

def operationsOfRound : List Operation :=
  functionOperations word size round ++
    (if 16 ≤ round then messageOperations word size round else []) ++
    registerOperations word round

def sumsOfRound : List SumEquation :=
  (if 16 ≤ round then
    [⟨.w, round,
      [word .smallSigma1 0, word .w 7, word .smallSigma0 0, word .w 16], [word .w 0]⟩]
   else []) ++
  [⟨.t, round,
    [word .e 4, word .bigSigma1 0, word .ch 0, word .k 0, word .w 0], [word .t 0]⟩,
   ⟨.e, round, [word .a 4, word .t 0], [word .e 0]⟩,
   ⟨.a, round, [word .t 0, word .bigSigma0 0, word .maj 0], [word .a 0]⟩]

end

end ShaDiff.Topology
