import ShaDiff.Bit
import ShaDiff.Condition
import Std.Data.TreeMap

/-!
# Characteristics

A characteristic gives each bit a condition. A bit nothing was said of may be
anything, and the bits of the zero word are zero whatever is said.
-/

namespace ShaDiff

structure Characteristic where
  conditions : Std.TreeMap Bit Condition := ∅

namespace Characteristic

def empty : Characteristic := {}

def get (c : Characteristic) (b : Bit) : Condition :=
  if b.isZero then .zero else c.conditions.getD b .any

def set (c : Characteristic) (b : Bit) (d : Condition) : Characteristic :=
  ⟨c.conditions.insert b d⟩

theorem get_zero {b : Bit} (h : b.isZero = true) (c : Characteristic) : c.get b = .zero := by
  simp [get, h]

theorem get_set {a : Bit} (h : a.isZero = false) (c : Characteristic) (b : Bit) (d : Condition) :
    (c.set a d).get b = if a = b then d else c.get b := by
  simp only [get, set, Std.TreeMap.getD_insert, Std.LawfulEqCmp.compare_eq_iff_eq]
  split
  · next hb =>
    split
    · next hab => rw [hab, hb] at h; exact absurd h (by simp)
    · rfl
  · rfl

end Characteristic

end ShaDiff
