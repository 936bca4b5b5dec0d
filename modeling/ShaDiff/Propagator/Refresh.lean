import ShaDiff.Propagator.Basic

/-!
# Refreshing conditions

Assignments only make bits dirty. A refresh reads the condition of each dirty
bit from the valuation of its atoms, and marks those who read the bit if the
new condition leaves out some pair of the old one. A refresh is the only way
for news to reach propagation, so one precedes all work for the host.
-/

namespace ShaDiff.Propagator

variable {ρ : Type}

def freshCondition (p : Propagator ρ) (b : Bit) : Condition :=
  p.encoding.refresh ((p.topology.slots b).map fun a? => a?.bind p.value?)

def markReaders (p : Propagator ρ) (b : Bit) : Propagator ρ :=
  let readers := p.topology.readersOf b
  { p with marks := readers.sums.foldl .markSum (readers.sites.foldl .markColumn p.marks) }

def refreshBit (p : Propagator ρ) (b : Bit) : Propagator ρ :=
  let fresh := p.freshCondition b
  let stale := p.condition b
  if fresh = stale then p
  else
    let p := { p with characteristic := p.characteristic.set b fresh }
    if stale.subset fresh then p else p.markReaders b

def refresh (p : Propagator ρ) : Propagator ρ :=
  let (bits, valuation) := p.valuation.takeDirty
  bits.foldl refreshBit { p with valuation }

end ShaDiff.Propagator
