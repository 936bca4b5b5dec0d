import ShaDiff.Propagator.Basic

/-!
# Checking two-bit equations

The equations of all columns and sums are live as long as their antecedents are
false. A check looks for live equations that are jointly inconsistent.
-/

namespace ShaDiff.Propagator

variable {ρ : Type}

def equations (p : Propagator ρ) : List Equation :=
  p.columnEquations.values.flatten ++ p.sumEquations.values.flatten

def liveEquations (p : Propagator ρ) : List Equation :=
  Equation.sort (p.equations.filter fun e => e.isLive p.literal?)

/-- A clause that blocks some inconsistent live equations. Inconsistency that
depends on nothing has no clause. -/
def checkTwoBit (p : Propagator ρ) : Option Clause × Propagator ρ :=
  if p.config.twoBit = .off ∨ p.encoding.differenceSlot?.isNone then (none, p)
  else
    let p := { p with counters.twoBitChecks := p.counters.twoBitChecks + 1 }
    match p.config.twoBit.conflict? p.liveEquations with
    | none | some [] => (none, p)
    | some c => (some c, { p with counters.twoBitConflicts := p.counters.twoBitConflicts + 1 })

end ShaDiff.Propagator
