import ShaDiff.Propagator.TwoBit

/-!
# Decisions

A decision is offered when nothing else is pending, and the first candidate is
taken:

- of the message words `W` from the last round back, each from its most
  significant bit, a bit that may be anything is decided to have no difference,
  and one with a difference gets a sign at random;
- likewise of the registers `A` and then `E` of the last four rounds;
- an atom of a live two-bit equation whose bit has no known difference gets a
  polarity at random.

A bit is passed over if the condition chosen for it forces nothing new.
-/

namespace ShaDiff.Propagator

variable {ρ : Type} [Coin ρ]

def firstOpen? (p : Propagator ρ) (b : Bit) (c : Condition) : Option Literal :=
  (p.encoding.forced (p.topology.slots b) c).find? fun l => (p.literal? l).isNone

/-- Decides the first of some bits that can be. A coin is tossed for each bit
with a difference that is come to. -/
def decideBits (p : Propagator ρ) : List Bit → ρ → Option Literal × ρ
  | [], source => (none, source)
  | b :: bs, source =>
    if p.condition b = .any then
      match p.firstOpen? b .same with
      | some l => (some l, source)
      | none => p.decideBits bs source
    else if p.condition b = .x then
      let (heads, source) := Coin.toss source
      match p.firstOpen? b (if heads then .u else .n) with
      | some l => (some l, source)
      | none => p.decideBits bs source
    else p.decideBits bs source

/-- The bits of the words of a role, from the last of so many rounds back and
each from the most significant bit. -/
def bitsBackward (p : Propagator ρ) (role : Role) (first : Int) (rounds : Nat) : List Bit :=
  ((List.range rounds).reverse.filterMap fun (i : Nat) =>
    p.topology.wordAt? role (first + i)).flatMap fun word => (p.topology.wordBits word).reverse

/-- The message bits in the order they are decided in. -/
def messageBits (p : Propagator ρ) (order : Nat) : List Bit :=
  p.bitsBackward .w 0 order

def registerBits (p : Propagator ρ) (order : Nat) : List Bit :=
  let first := max (order - 4 : Int) firstRound
  let rounds := (order - first).toNat
  p.bitsBackward .a first rounds ++ p.bitsBackward .e first rounds

def openEquationAtom? (p : Propagator ρ) : Option Atom :=
  (p.liveEquations.flatMap fun e => [e.a, e.b]).find? fun a =>
    (p.value? a).isNone &&
      (p.topology.tracked[a]?.any fun place => (p.condition place.bit).difference?.isNone)

def findDecision (p : Propagator ρ) : Option Literal × Propagator ρ :=
  match p.topology.order with
  | none => (none, p)
  | some order =>
    match p.decideBits (p.messageBits order ++ p.registerBits order) p.source with
    | (some l, source) => (some l, { p with source })
    | (none, source) =>
      match p.openEquationAtom? with
      | none => (none, { p with source })
      | some a =>
        let (heads, source) := Coin.toss source
        (some ⟨a, heads⟩, { p with source })

end ShaDiff.Propagator
