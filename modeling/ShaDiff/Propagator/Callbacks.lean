import ShaDiff.Propagator.Decision
import ShaDiff.Propagator.Finding
import ShaDiff.Propagator.Refresh

/-!
# Callbacks of the host

The host notifies the propagator of its assignments, levels and backtracks, and
asks for literals to propagate, reasons, clauses and decisions. Each question is
answered by one literal at most. So a clause is given a literal at a time and
ends where there is none, and work that was found is held until the host has
taken all of it or a backtrack discards it.
-/

namespace ShaDiff.Propagator

variable {ρ : Type}

/-- Notes that a literal is true. A literal that is true for good is fixed and
does not go on the trail. Atoms that are not tracked are ignored. -/
def assign (p : Propagator ρ) (l : Literal) (isFixed : Bool) : Propagator ρ :=
  if p.isBuilt && p.topology.tracked.contains l.atom then
    let valuation := if isFixed then p.valuation.setFixed l.atom true else p.valuation
    { p with
      valuation := (valuation.assign p.topology.tracked l).2
      trail := if isFixed then p.trail else p.trail.store l
      counters.assignments := p.counters.assignments + 1 }
  else p

def openLevel (p : Propagator ρ) : Propagator ρ :=
  let p := { p with trail := p.trail.push }
  match p.status with
  | .deciding _ => { p with status := .idle }
  | _ => p

/-- Takes back what was assigned above a level, newest first, and discards all
work in progress. Reasons are kept while all their literals have a value. -/
def backtrack (p : Propagator ρ) (level : Nat) : Propagator ρ :=
  let (removed, trail) := p.trail.popTo level
  let valuation := removed.foldl (fun v l => (v.unassign p.topology.tracked l.atom).2) p.valuation
  let p := { p with trail, valuation }.refresh
  { p with
    status := .idle
    stream := none
    reasons := p.reasons.filter fun l c =>
      (p.literal? l).isSome && c.all fun k => (p.literal? k).isSome
    counters.backtracks := p.counters.backtracks + 1 }

def acceptsModel (_ : Propagator ρ) (_ : List Literal) : Bool := true

def decide [Coin ρ] (p : Propagator ρ) : Option Literal × Propagator ρ :=
  if p.isBuilt && p.config.branching && p.status == .idle then
    match p.refresh.findDecision with
    | (none, p) => (none, p)
    | (some l, p) =>
      (some l, { p with
        status := .deciding l, counters.decisions := p.counters.decisions + 1 })
  else (none, p)

def giveBatch (p : Propagator ρ) (batch : List Literal) : Option Literal × Propagator ρ :=
  match batch.dropWhile fun l => p.literal? l == some true with
  | [] => (none, { p with status := .idle })
  | l :: rest =>
    (some l, { p with
      status := .propagating rest
      counters.propagations := p.counters.propagations + 1 })

/-- Looks for something new to propagate. The literals found are remembered with
their reasons, and the first of them is given. -/
def findBatch (p : Propagator ρ) : Option Literal × Propagator ρ :=
  match p.refresh.findPropagation with
  | (.nothing, p) => (none, p)
  | (.conflict c, p) => (none, { p with status := .blocking c 0 })
  | (.literals ls, p) =>
    let reasons := ls.foldl (fun rs (l, reason) => rs.insert l reason) p.reasons
    { p with reasons }.giveBatch (ls.map Prod.fst)

def propagate (p : Propagator ρ) : Option Literal × Propagator ρ :=
  if p.isBuilt then
    match p.status with
    | .propagating batch =>
      match p.giveBatch batch with
      | (none, p) => p.findBatch
      | given => given
    | .idle => p.findBatch
    | _ => (none, p)
  else (none, p)

def giveReason (p : Propagator ρ) (s : ReasonStream) : Option Literal × Propagator ρ :=
  match s.clause[s.given]? with
  | some l => (some l, { p with stream := some { s with given := s.given + 1 } })
  | none => (none, { p with stream := none })

/-- The next literal of the reason of a propagated literal. To ask for another
literal's reason starts that one instead. -/
def reason (p : Propagator ρ) (l : Literal) : Except Breach (Option Literal × Propagator ρ) :=
  match p.stream.filter (·.literal == l) with
  | some s => .ok (p.giveReason s)
  | none =>
    match p.reasons[l]? with
    | none => .error (.noReason l)
    | some clause =>
      .ok ({ p with counters.reasons := p.counters.reasons + 1 }.giveReason ⟨l, clause, 0⟩)

/-- Whether there is a clause for the host. Two-bit equations are checked on
every so many of the questions that find nothing pending. -/
def hasClause (p : Propagator ρ) : Bool × Propagator ρ :=
  match p.status with
  | .blocking .. => (true, p)
  | .idle =>
    if p.isBuilt then
      let p := { p with queries := p.queries + 1 }
      if p.queries % max p.config.twoBitInterval 1 ≠ 0 then (false, p)
      else
        match p.refresh.checkTwoBit with
        | (some c, p) => (true, { p with status := .blocking c 0 })
        | (none, p) => (false, p)
    else (false, p)
  | _ => (false, p)

def clause (p : Propagator ρ) : Option Literal × Propagator ρ :=
  match p.status with
  | .blocking clause given =>
    match clause[given]? with
    | some l => (some l, { p with status := .blocking clause (given + 1) })
    | none => (none, { p with status := .idle })
  | _ => (none, p)

end ShaDiff.Propagator
