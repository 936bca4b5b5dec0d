import ShaDiff.Characteristic
import ShaDiff.Config
import ShaDiff.Fault
import ShaDiff.Marks
import ShaDiff.Memo
import ShaDiff.Random
import ShaDiff.Topology.Basic
import ShaDiff.Trail

/-!
# The propagator

A propagator is configured with a topology and then driven by a host solver. It
keeps the valuation of the host on the tracked atoms, reads it as conditions
of bits, and offers the host what follows. Between two calls it holds at most
one piece of work for the host, which is its status; a reason that is being
given is held apart, as the host may ask for one at any time.
-/

namespace ShaDiff

structure Counters where
  assignments : Nat := 0
  backtracks : Nat := 0
  /-- The columns propagated. -/
  columns : Nat := 0
  /-- The propagated literals given. -/
  propagations : Nat := 0
  /-- The contradictions of columns and sums. -/
  conflicts : Nat := 0
  /-- The sums that forced a literal. -/
  derivations : Nat := 0
  twoBitChecks : Nat := 0
  twoBitConflicts : Nat := 0
  decisions : Nat := 0
  reasons : Nat := 0
deriving DecidableEq

inductive Status
  | idle
  /-- Literals propagated together, to be given one at a time. -/
  | propagating (batch : List Literal)
  /-- A clause to be given, and how much of it has been. -/
  | blocking (clause : Clause) (given : Nat)
  /-- A decision that no new level has followed. -/
  | deciding (l : Literal)
deriving DecidableEq

def Status.name : Status → String
  | idle => "Idle"
  | propagating _ => "HasPropagation"
  | blocking .. => "HasExternalClause"
  | deciding _ => "HasDecision"

structure ReasonStream where
  literal : Literal
  clause : Clause
  given : Nat
deriving DecidableEq

/-- The type `ρ` is that of its source of coin tosses. -/
structure Propagator (ρ : Type) where
  config : Config
  topology : Topology
  characteristic : Characteristic := .empty
  valuation : Valuation := .empty
  trail : Trail := .empty
  columnCache : ColumnCache
  sumCache : SumCache
  /-- The equations found when a column was last propagated. -/
  columnEquations : Std.TreeMap Site (List Equation) := ∅
  /-- The equations found when a sum was last refined. -/
  sumEquations : Std.TreeMap Nat (List Equation) := ∅
  /-- The reason of each propagated literal, which is its first literal. -/
  reasons : Std.TreeMap Literal Clause := ∅
  marks : Marks := .empty
  status : Status := .idle
  stream : Option ReasonStream := none
  /-- How often the host asked for a clause while nothing was pending. -/
  queries : Nat := 0
  counters : Counters := {}
  source : ρ

namespace Propagator

variable {ρ : Type}

def new (config : Config) (source : ρ) : Propagator ρ where
  config
  topology := { encoding := config.encoding, wordSize := config.wordSize }
  columnCache := .empty config.cacheLimit
  sumCache := .empty config.cacheLimit
  source

def ofConfig (config : Config) : Propagator Pcg := new config (.ofSeed config.seed)

def isBuilt (p : Propagator ρ) : Bool := p.topology.isBuilt

def encoding (p : Propagator ρ) : Encoding := p.topology.encoding

def condition (p : Propagator ρ) (b : Bit) : Condition := p.characteristic.get b

def wordConditions (p : Propagator ρ) (word : Nat) : List Condition :=
  (p.topology.wordBits word).map p.condition

def wordText (p : Propagator ρ) (word : Nat) : String :=
  Condition.render (p.wordConditions word).reverse

def wordText? (p : Propagator ρ) (role : Role) (round : Int) : Except Fault (Option String) :=
  if p.isBuilt then .ok ((p.topology.wordAt? role round).map p.wordText) else .error .notBuilt

def value? (p : Propagator ρ) (a : Atom) : Option Bool := p.valuation.value? a

def literal? (p : Propagator ρ) (l : Literal) : Option Bool := p.valuation.literal? l

/-- Sets the condition of a bit, which should be what the valuation says of it. -/
def setCondition (p : Propagator ρ) (b : Bit) (c : Condition) : Except Breach (Propagator ρ) :=
  if b.isZero then .error (.zeroWordWrite c)
  else .ok { p with characteristic := p.characteristic.set b c }

end Propagator

end ShaDiff
