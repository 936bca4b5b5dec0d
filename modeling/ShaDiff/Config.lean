import ShaDiff.Encoding
import ShaDiff.TwoBit.Strategy

/-!
# Configuration of a propagator

All that can be chosen, and the bounds within which a setting takes a value.
-/

namespace ShaDiff

def wordSizeMax : Nat := 32

structure Config where
  encoding : Encoding := .oneBit
  wordSize : Nat := wordSizeMax
  /-- Whether sums are propagated once no column is left. -/
  wordwise : Bool := true
  twoBit : TwoBit.Strategy := .unionFind
  /-- Two-bit equations are checked on every so many queries for a clause. -/
  twoBitInterval : Nat := 1
  /-- Whether decisions are offered. -/
  branching : Bool := true
  /-- The results a cache remembers before it is cleared. -/
  cacheLimit : Nat := 1 <<< 20
  /-- Seeds the source of randomness. -/
  seed : UInt64 := 0
deriving DecidableEq

structure Setting (α : Type) where
  name : String
  least : α
  most : α
  get : Config → α
  put : Config → α → Config

/-- Takes a value that is within the bounds. Answers whether it is. -/
def Setting.set [LE α] [DecidableLE α] (s : Setting α) (c : Config) (value : α) : Bool × Config :=
  if s.least ≤ value ∧ value ≤ s.most then (true, s.put c value) else (false, c)

namespace Config

def numberMax : Nat := (1 <<< 64) - 1

def encodingSetting : Setting Encoding :=
  ⟨"encoding", .oneBit, .li2024, encoding, fun c v => { c with encoding := v }⟩

def wordSizeSetting : Setting Nat :=
  ⟨"word_size", 1, wordSizeMax, wordSize, fun c v => { c with wordSize := v }⟩

def wordwiseSetting : Setting Bool :=
  ⟨"wordwise", false, true, wordwise, fun c v => { c with wordwise := v }⟩

def twoBitSetting : Setting TwoBit.Strategy :=
  ⟨"two_bit", .off, .graph, twoBit, fun c v => { c with twoBit := v }⟩

def twoBitIntervalSetting : Setting Nat :=
  ⟨"two_bit_interval", 1, numberMax, twoBitInterval, fun c v => { c with twoBitInterval := v }⟩

def branchingSetting : Setting Bool :=
  ⟨"branching", false, true, branching, fun c v => { c with branching := v }⟩

def cacheLimitSetting : Setting Nat :=
  ⟨"cache_limit", 0, numberMax, cacheLimit, fun c v => { c with cacheLimit := v }⟩

def seedSetting : Setting UInt64 :=
  ⟨"seed", 0, .ofNat numberMax, seed, fun c v => { c with seed := v }⟩

end Config

end ShaDiff
