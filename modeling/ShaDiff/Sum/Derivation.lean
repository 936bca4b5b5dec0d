import ShaDiff.Breach
import ShaDiff.Modular
import ShaDiff.Sum.Carry

/-!
# Propagation of a sum of words

A sum states that its positive words and its negative words have the same
total, modulo two to the number of bits. As it holds in both instances it holds
of the signed differences. Where one or two words of one side are not grounded,
all others fold into a constant and those words are derived from it.
-/

namespace ShaDiff.Sum

structure WordRelation where
  first : Nat
  second : Nat
  column : Nat
  value : Bool
deriving DecidableEq

inductive Derivation
  /-- The sum says nothing here: no word is open, or too many are, or words on
  both sides. -/
  | skipped
  | contradiction
  /-- All words, positive words first and each least significant bit first. -/
  | refined (words : List (List Condition)) (relations : List WordRelation)
deriving DecidableEq

def isGrounded (word : List Condition) : Bool := word.all (·.grounded)

/-- The places among all words of those to be derived. -/
def openWords? (positive negative : List (List Condition)) : Option (List Nat) :=
  let words := positive ++ negative
  let p := positive.countP (!isGrounded ·)
  let n := negative.countP (!isGrounded ·)
  if p = 0 ∧ n = 0 ∨ 0 < p ∧ 0 < n ∨ 2 < p + n then none
  else if words.any (·.contains .never) then none
  else some ((List.range words.length).filter fun i => !isGrounded (words.getD i []))

def groundedTotal (words : List (List Condition)) : Int :=
  total ((words.filterMap Modular.toInteger?).map Int.ofNat)

/-- What the signed differences of the open words have to sum to. -/
def constant (positive negative : List (List Condition)) : Nat :=
  let folded := groundedTotal positive - groundedTotal negative
  let size := ((positive ++ negative).head?.getD []).length
  let signed := if positive.all isGrounded then folded else -folded
  (signed % (Modular.modulus size : Int)).toNat

def wordRelations (places : List Nat) (settled : List Settled) : List WordRelation :=
  (settled.zipIdx.map fun (s, column) =>
    (Relation.all s.patterns places.length).map fun r =>
      { first := places.getD r.first 0, second := places.getD r.second 0, column,
        value := r.value }).flatten

def replace (words : List (List Condition)) (places : List Nat)
    (derived : List (List Condition)) : List (List Condition) :=
  (places.zip derived).foldl (fun ws (place, word) => ws.set place word) words

def propagate (positive negative : List (List Condition)) : Derivation :=
  match openWords? positive negative with
  | none => .skipped
  | some places =>
    let words := positive ++ negative
    let opened := places.map (words.getD · [])
    match settleWords opened (constant positive negative) with
    | none => .contradiction
    | some settled =>
      .refined
        (replace words places (ofColumns (settled.map (·.conditions)) opened.length))
        (wordRelations places settled)

def sameSize (words : List (List Condition)) : Bool :=
  match words with
  | [] => true
  | word :: rest => rest.all fun w => w.length == word.length

def deriveChecked (words : List (List Condition)) (constant : Nat) :
    Except Breach (Option (List (List Condition))) :=
  if sameSize words then .ok (derive words constant) else .error .distinctSizes

def checked (positive negative : List (List Condition)) : Except Breach Derivation :=
  match openWords? positive negative with
  | none => .ok .skipped
  | some places =>
    if sameSize (places.map ((positive ++ negative).getD · [])) then
      .ok (propagate positive negative)
    else .error .distinctSizes

/-- Derives words that are written down, most significant bit first. There is no
answer either where the texts are no words of one size. -/
def deriveText? (words : List String) (constant : Nat) : Option (List String) := do
  let words ← words.mapM fun s => (Condition.parse? s).map List.reverse
  guard (sameSize words)
  let derived ← derive words constant
  return derived.map fun word => Condition.render word.reverse

end ShaDiff.Sum
