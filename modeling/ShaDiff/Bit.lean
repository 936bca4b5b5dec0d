import Std.Data.TreeSet

/-!
# Bits and views of words

A bit is named by the index of its word and its column, where column 0 is the
least significant one. A view reads the bits of a word in another order: whole,
rotated or shifted. Bits that a shift brings in are those of the zero word.
-/

namespace ShaDiff

structure Bit where
  word : Nat
  column : Nat
deriving DecidableEq

/-- The index of the word whose bits are always zero. -/
def zeroWord : Nat := 0

namespace Bit

def isZero (b : Bit) : Bool := b.word == zeroWord

instance : Ord Bit := ⟨compareLex (compareOn word) (compareOn column)⟩
instance : Std.TransOrd Bit :=
  inferInstanceAs (Std.TransCmp (compareLex (compareOn word) (compareOn column)))
instance : Std.LawfulEqOrd Bit where
  eq_of_compare {b c} h := by
    have h' := Ordering.then_eq_eq.1 (show ((compare b.word c.word).then _) = _ from h)
    rcases b with ⟨v, i⟩
    rcases c with ⟨w, j⟩
    rw [Bit.mk.injEq]
    exact ⟨Std.LawfulEqOrd.eq_of_compare h'.1, Std.LawfulEqOrd.eq_of_compare h'.2⟩

end Bit

inductive View
  | whole (word : Nat)
  /-- Rotated towards the least significant bit. -/
  | rotated (word : Nat) (amount : Nat)
  /-- Shifted towards the least significant bit. -/
  | lowered (word : Nat) (amount : Nat)
  /-- Shifted towards the most significant bit. So a carry that a word holds at
  its column `j` is read where it enters, at column `j + amount`. -/
  | raised (word : Nat) (amount : Nat)
deriving DecidableEq

namespace View

/-- The bit a view of a word of `size` bits shows at a column. -/
def bit (size : Nat) : View → (column : Nat) → Bit
  | whole w, j => ⟨w, j⟩
  | rotated w k, j => ⟨w, (j + k) % size⟩
  | lowered w k, j => if j + k < size then ⟨w, j + k⟩ else ⟨zeroWord, j⟩
  | raised w k, j => if k ≤ j then ⟨w, j - k⟩ else ⟨zeroWord, j⟩

def bits (size : Nat) (v : View) : List Bit := (List.range size).map (v.bit size)

end View

end ShaDiff
