import ShaDiff.Dialogue

/-!
# A small host

What a host solver does with a propagator, without clauses of its own: it takes
propagated literals with their reasons, turns its last decision over on a clause,
and otherwise decides as it is told.
-/

namespace ShaDiff

namespace Propagator

variable {ρ : Type}

/-- The literals of a reason that are still to be given, or more. -/
def reasonLength (p : Propagator ρ) (l : Literal) : Nat :=
  match p.stream.filter (·.literal == l) with
  | some s => s.clause.length
  | none => (p.reasons.getD l []).length

def takeReasonIn : (turns : Nat) → Propagator ρ → Literal →
    Except Breach (List Literal × Propagator ρ)
  | 0, p, _ => .ok ([], p)
  | turns + 1, p, l => do
    match ← p.reason l with
    | (none, p) => return ([], p)
    | (some k, p) =>
      let (rest, p) ← takeReasonIn turns p l
      return (k :: rest, p)

def takeReason (p : Propagator ρ) (l : Literal) : Except Breach (List Literal × Propagator ρ) :=
  takeReasonIn (p.reasonLength l + 1) p l

def takeClauseIn : (turns : Nat) → Propagator ρ → List Literal × Propagator ρ
  | 0, p => ([], p)
  | turns + 1, p =>
    match p.clause with
    | (none, p) => ([], p)
    | (some l, p) =>
      let (rest, p) := takeClauseIn turns p
      (l :: rest, p)

def takeClause (p : Propagator ρ) : List Literal × Propagator ρ :=
  match p.status with
  | .blocking clause _ => takeClauseIn (clause.length + 1) p
  | _ => ([], p.clause.2)

def propagateAllIn : (turns : Nat) → Propagator ρ → List Literal × Propagator ρ
  | 0, p => ([], p)
  | turns + 1, p =>
    match p.propagate with
    | (none, p) => ([], p)
    | (some l, p) =>
      let (rest, p) := propagateAllIn turns (p.assign l false)
      (l :: rest, p)

/-- Propagates until there is nothing more, and assigns each literal as it is
given. An atom without a value comes up in one batch at most, there with either
polarity, so a bound on the turns is known. -/
def propagateAll (p : Propagator ρ) : List Literal × Propagator ρ :=
  let pending := match p.status with
    | .propagating batch => batch.length
    | _ => 0
  propagateAllIn (pending + 2 * p.topology.tracked.size + 1) p

end Propagator

namespace Host

inductive Event
  | propagated (l : Literal) (reason : List Literal)
  | blocked (clause : List Literal)
  /-- What was decided, or that there was nothing to decide. -/
  | decided (l : Option Literal)
deriving DecidableEq

variable {ρ : Type} [Coin ρ]

/-- Drives a propagator for some turns. The decisions that stand are given with
the last one first; without one left to turn over the host stops. -/
def drive : (turns : Nat) → Propagator ρ → (decisions : List Literal) →
    Except Breach (List Event × Propagator ρ)
  | 0, p, _ => .ok ([], p)
  | turns + 1, p, decisions => do
    match p.propagate with
    | (some l, p) =>
      let (reason, p) ← p.takeReason l
      let (events, p) ← drive turns (p.assign l false) decisions
      return (.propagated l reason :: events, p)
    | (none, p) =>
      match p.hasClause with
      | (true, p) =>
        let (clause, p) := p.takeClause
        match decisions with
        | [] => return ([.blocked clause], p)
        | d :: decisions =>
          let p := (p.backtrack (p.trail.level - 1)).assign d.negate false
          let (events, p) ← drive turns p decisions
          return (.blocked clause :: events, p)
      | (false, p) =>
        match p.decide with
        | (none, p) => return ([.decided none], p)
        | (some d, p) =>
          let (events, p) ← drive turns (p.openLevel.assign d false) (d :: decisions)
          return (.decided (some d) :: events, p)

end Host

end ShaDiff
