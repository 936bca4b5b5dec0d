import ShaDiff.Bit
import ShaDiff.BitRow
import ShaDiff.Breach
import ShaDiff.Cache
import ShaDiff.Characteristic
import ShaDiff.Column
import ShaDiff.Condition
import ShaDiff.Config
import ShaDiff.Dialogue
import ShaDiff.Encoding
import ShaDiff.Entry
import ShaDiff.Equation
import ShaDiff.Fault
import ShaDiff.Gate
import ShaDiff.Host
import ShaDiff.Literal
import ShaDiff.Marks
import ShaDiff.Memo
import ShaDiff.Modular
import ShaDiff.Proofs.BitRow
import ShaDiff.Proofs.Clauses
import ShaDiff.Proofs.Column
import ShaDiff.Proofs.Column.Counter
import ShaDiff.Proofs.Column.Exact
import ShaDiff.Proofs.Column.Free
import ShaDiff.Proofs.Column.Idempotent
import ShaDiff.Proofs.Column.Related
import ShaDiff.Proofs.Configuration
import ShaDiff.Proofs.Confluence
import ShaDiff.Proofs.Consequences
import ShaDiff.Proofs.Decision
import ShaDiff.Proofs.Draining
import ShaDiff.Proofs.Encoding
import ShaDiff.Proofs.Guarded.Basic
import ShaDiff.Proofs.Guarded.Bits
import ShaDiff.Proofs.Guarded.Callbacks
import ShaDiff.Proofs.Guarded.Column
import ShaDiff.Proofs.Guarded.Finding
import ShaDiff.Proofs.Guarded.Island
import ShaDiff.Proofs.Guarded.Relation
import ShaDiff.Proofs.Guarded.Sum
import ShaDiff.Proofs.Guarded.TwoBit
import ShaDiff.Proofs.Marks
import ShaDiff.Proofs.Mirroring
import ShaDiff.Proofs.Modular
import ShaDiff.Proofs.Narrowing
import ShaDiff.Proofs.Pending
import ShaDiff.Proofs.Propagator.Antecedent
import ShaDiff.Proofs.Propagator.Attentive
import ShaDiff.Proofs.Propagator.Batch
import ShaDiff.Proofs.Propagator.Examined
import ShaDiff.Proofs.Propagator.Finding
import ShaDiff.Proofs.Propagator.Fixpoint
import ShaDiff.Proofs.Propagator.Frame
import ShaDiff.Proofs.Propagator.Held
import ShaDiff.Proofs.Propagator.Invariant
import ShaDiff.Proofs.Propagator.Memo
import ShaDiff.Proofs.Propagator.Memory
import ShaDiff.Proofs.Propagator.Mirror
import ShaDiff.Proofs.Propagator.Range
import ShaDiff.Proofs.Propagator.Refreshing
import ShaDiff.Proofs.Propagator.Search
import ShaDiff.Proofs.Propagator.Slotted
import ShaDiff.Proofs.Propagator.TwoBit
import ShaDiff.Proofs.Propagator.Underway
import ShaDiff.Proofs.Reasons
import ShaDiff.Proofs.Recall
import ShaDiff.Proofs.Refinement
import ShaDiff.Proofs.Rejection
import ShaDiff.Proofs.Renaming.Answers
import ShaDiff.Proofs.Renaming.Entries
import ShaDiff.Proofs.Renaming.Propagator
import ShaDiff.Proofs.Renaming.Swap
import ShaDiff.Proofs.Renaming.Topology
import ShaDiff.Proofs.Request
import ShaDiff.Proofs.Restoration
import ShaDiff.Proofs.Rules
import ShaDiff.Proofs.Run
import ShaDiff.Proofs.Satisfaction
import ShaDiff.Proofs.Schedule
import ShaDiff.Proofs.Selections
import ShaDiff.Proofs.Solver
import ShaDiff.Proofs.Soundness
import ShaDiff.Proofs.StepFunction
import ShaDiff.Proofs.Streams
import ShaDiff.Proofs.Sum.Balance
import ShaDiff.Proofs.Sum.Carry
import ShaDiff.Proofs.Sum.Derivation
import ShaDiff.Proofs.Sum.Exact
import ShaDiff.Proofs.Sum.Idempotent
import ShaDiff.Proofs.Sum.Islands
import ShaDiff.Proofs.Sum.Signs
import ShaDiff.Proofs.Sum.Words
import ShaDiff.Proofs.Text
import ShaDiff.Proofs.Topology.Apart
import ShaDiff.Proofs.Topology.AtomReaders
import ShaDiff.Proofs.Topology.Build
import ShaDiff.Proofs.Topology.Entering
import ShaDiff.Proofs.Topology.Filling
import ShaDiff.Proofs.Topology.Instances
import ShaDiff.Proofs.Topology.Range
import ShaDiff.Proofs.Topology.ReverseIndex
import ShaDiff.Proofs.Topology.Slots
import ShaDiff.Proofs.Topology.Steps
import ShaDiff.Proofs.Tracking
import ShaDiff.Proofs.Trail
import ShaDiff.Proofs.Transcript
import ShaDiff.Proofs.TwoBit.Circuit
import ShaDiff.Proofs.TwoBit.Cycle
import ShaDiff.Proofs.TwoBit.EdgeStore
import ShaDiff.Proofs.TwoBit.Implication
import ShaDiff.Proofs.TwoBit.Kernel
import ShaDiff.Proofs.TwoBit.Shortest
import ShaDiff.Proofs.TwoBit.SignedSets
import ShaDiff.Proofs.TwoBit.Strategy
import ShaDiff.Proofs.Wakeups
import ShaDiff.Proofs.Word
import ShaDiff.Propagator.Basic
import ShaDiff.Propagator.Callbacks
import ShaDiff.Propagator.Configure
import ShaDiff.Propagator.Decision
import ShaDiff.Propagator.Finding
import ShaDiff.Propagator.Refresh
import ShaDiff.Propagator.TwoBit
import ShaDiff.Random
import ShaDiff.Relation
import ShaDiff.Role
import ShaDiff.Rule
import ShaDiff.Selection
import ShaDiff.Sum.Carry
import ShaDiff.Sum.Derivation
import ShaDiff.Text.Blank
import ShaDiff.Text.Line
import ShaDiff.Text.Numeral
import ShaDiff.Text.Split
import ShaDiff.Topology.Basic
import ShaDiff.Topology.Build
import ShaDiff.Topology.Entering
import ShaDiff.Topology.Round
import ShaDiff.Trail
import ShaDiff.TwoBit.Cycle
import ShaDiff.TwoBit.Forest
import ShaDiff.TwoBit.Kernel
import ShaDiff.TwoBit.SignedSets
import ShaDiff.TwoBit.Strategy
import ShaDiff.Valuation
