import ShaDiff.Proofs.Encoding
import ShaDiff.Topology.Basic

/-!
# Pairs of instances

The operations of a topology say which values of the bits are a computation: the bits
of the zero word are zero, and the outputs of every column are what the gate gives for
its inputs. Two computations side by side give each bit a pair, and the pairs give
each atom a value. A clause is entailed by a topology if it holds in every pair of
instances, and all clauses a propagator tells the host should be.
-/

namespace ShaDiff

/-- Whether an operation holds at every column of words of some size. -/
def Operation.Holds (size : Nat) (ν : Bit → Bool) (o : Operation) : Prop :=
  ∀ column < size, (o.outputs.map (·.bit size column)).map ν =
    o.gate.evaluate ((o.inputs.map (·.bit size column)).map ν)

namespace Topology

/-- Whether a choice of a value for every bit is a computation. -/
structure Computes (t : Topology) (ν : Bit → Bool) : Prop where
  zero : ∀ b : Bit, b.isZero = true → ν b = false
  operation : ∀ o ∈ t.operations, o.Holds t.wordSize ν

/-- Whether a choice of a pair for every bit consists of two computations. -/
structure Instances (t : Topology) (σ : Bit → Pair) : Prop where
  first : t.Computes fun b => (σ b).first
  second : t.Computes fun b => (σ b).second

/-- Whether a valuation says of every atom what its slot means for the pair of its
bit. -/
def Reads (t : Topology) (σ : Bit → Pair) (v : Atom → Bool) : Prop :=
  ∀ b, t.encoding.Reads (t.slots b) (σ b) v

def Entails (t : Topology) (c : Clause) : Prop :=
  ∀ σ v, t.Instances σ → t.Reads σ v → c.Holds v

def Validates (t : Topology) (e : Equation) : Prop :=
  ∀ σ v, t.Instances σ → t.Reads σ v → e.Valid v

variable {t : Topology} {σ : Bit → Pair}

theorem Instances.zero (h : t.Instances σ) {b : Bit} (hb : b.isZero = true) :
    σ b = ⟨false, false⟩ := by
  have h1 := h.first.zero b hb
  have h2 := h.second.zero b hb
  rcases hp : σ b with ⟨x, y⟩
  simp only [hp] at h1 h2
  rw [h1, h2]

end Topology

end ShaDiff
