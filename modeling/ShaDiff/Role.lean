/-!
# Roles of words

Each round of the step function has a bundle of words, told apart by their
roles: the registers `A` and `E`, the message word `W`, the words between them
and the carry words of each addition. The first of two carry words goes to the
next column, the second to the column after it. One more role belongs to the
word whose bits are always zero.
-/

namespace ShaDiff

inductive Role
  | a
  | e
  | w
  | bigSigma0
  | bigSigma1
  | smallSigma0
  | smallSigma1
  | maj
  | ch
  | t
  | k
  | wCarry
  | wCarry2
  | tCarry
  | tCarry2
  | eCarry
  | aCarry
  | aCarry2
  | zero
deriving DecidableEq

namespace Role

def configurable : List Role :=
  [a, e, w, bigSigma0, bigSigma1, smallSigma0, smallSigma1, maj, ch, t, k,
   wCarry, wCarry2, tCarry, tCarry2, eCarry, aCarry, aCarry2]

def index (r : Role) : Nat := r.ctorIdx

theorem index_inj {r s : Role} (h : r.index = s.index) : r = s := by
  revert h
  cases r <;> cases s <;> decide

def name : Role → String
  | a => "A"
  | e => "E"
  | w => "W"
  | bigSigma0 => "S0"
  | bigSigma1 => "S1"
  | smallSigma0 => "s0"
  | smallSigma1 => "s1"
  | maj => "MAJ"
  | ch => "CH"
  | t => "T"
  | k => "K"
  | wCarry => "Wc1"
  | wCarry2 => "Wc2"
  | tCarry => "Tc1"
  | tCarry2 => "Tc2"
  | eCarry => "Ec1"
  | aCarry => "Ac1"
  | aCarry2 => "Ac2"
  | zero => "zero"

def ofName? (s : String) : Option Role := configurable.find? fun r => r.name == s

/-- Registers are carried on to later rounds and exist before round 0. -/
def isRegister (r : Role) : Bool := r == a || r == e

/-- Words a configuration has to name: the others are added without atoms. -/
def isRequired (r : Role) : Bool := r == a || r == e || r == w

instance : Ord Role := ⟨compareOn index⟩
instance : Std.TransOrd Role := inferInstanceAs (Std.TransCmp (compareOn index))
instance : Std.LawfulEqOrd Role where
  eq_of_compare h := index_inj (Std.LawfulEqOrd.eq_of_compare h)

end Role

def firstRound : Int := -4

def orderMax : Nat := 64

/-- The round before which a topology of `order` rounds ends. Rounds are signed
integers of 32 bits, so an order past the greatest of them wraps around. -/
def endRound (order : Nat) : Int := (Int32.ofNat order).toInt

theorem endRound_of_le {order : Nat} (h : order ≤ orderMax) : endRound order = order :=
  Int32.toInt_ofNat_of_lt (Nat.lt_of_le_of_lt h (by decide))

def Role.applicable (r : Role) (round : Int) (order : Nat) : Bool :=
  round < endRound order &&
  match r with
  | a | e => firstRound ≤ round
  | smallSigma0 | smallSigma1 | wCarry | wCarry2 => 16 ≤ round
  | zero => false
  | _ => 0 ≤ round

end ShaDiff
