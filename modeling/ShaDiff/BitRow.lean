/-!
# Rows of bits

A row of bits is a vector over GF(2) and is held as the number whose binary
digits are its entries. Space comes in blocks of 64 bits: a row has room for
whole blocks, and the entries past its length but within its room can be
written too. They count as entries, but are not listed among the ones.
-/

namespace ShaDiff

structure BitRow where
  length : Nat
  bits : Nat
deriving DecidableEq

namespace BitRow

def blockSize : Nat := 64

def zeros (length : Nat) : BitRow := ⟨length, 0⟩

def room (r : BitRow) : Nat := (r.length + blockSize - 1) / blockSize * blockSize

theorem length_le_room (r : BitRow) : r.length ≤ r.room := by
  unfold room blockSize
  omega

def get (r : BitRow) (i : Nat) : Bool := r.bits.testBit i

def flip (r : BitRow) (i : Nat) : BitRow :=
  if i < r.room then { r with bits := r.bits ^^^ 1 <<< i } else r

theorem get_flip {r : BitRow} {i : Nat} (h : i < r.room) (j : Nat) :
    (r.flip i).get j = (r.get j ^^ decide (i = j)) := by
  simp [flip, get, h, Nat.one_shiftLeft, Nat.testBit_two_pow]

theorem length_flip (r : BitRow) (i : Nat) : (r.flip i).length = r.length := by
  unfold flip
  split <;> rfl

def set (r : BitRow) (i : Nat) (value : Bool) : BitRow :=
  if r.get i = value then r else r.flip i

theorem get_set {r : BitRow} {i : Nat} (h : i < r.room) (value : Bool) (j : Nat) :
    (r.set i value).get j = if i = j then value else r.get j := by
  unfold set
  split
  · split <;> simp_all
  · rw [get_flip h]
    by_cases hj : i = j <;> grind

theorem length_set (r : BitRow) (i : Nat) (value : Bool) : (r.set i value).length = r.length := by
  unfold set
  split
  · rfl
  · exact r.length_flip i

/-- Adds a row over GF(2), on the blocks that both rows have. -/
def xor (r s : BitRow) : BitRow := { r with bits := r.bits ^^^ s.bits % (1 <<< r.room) }

theorem get_xor {r s : BitRow} {i : Nat} (h : i < r.room) :
    (r.xor s).get i = (r.get i ^^ s.get i) := by
  simp [xor, get, h, Nat.one_shiftLeft, Nat.testBit_mod_two_pow]

def isEmpty (r : BitRow) : Bool := r.length == 0

def isZero (r : BitRow) : Bool := r.bits == 0

/-- The places of ones in the whole room, in ascending order. -/
def onesInRoom (r : BitRow) : List Nat := (List.range r.room).filter r.get

def ones (r : BitRow) : List Nat := (List.range r.length).filter r.get

def count (r : BitRow) : Nat := r.onesInRoom.length

def first? (r : BitRow) : Option Nat := r.onesInRoom.head?

end BitRow

end ShaDiff
