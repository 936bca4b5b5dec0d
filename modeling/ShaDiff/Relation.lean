/-!
# Related differences

A pattern says of each position whether its two values differ. Given the
patterns that remain possible, two positions are related if the sum of their
differences is the same in every pattern while neither difference is. Relations
are what two-bit equations are made from.
-/

namespace ShaDiff

/-- The differences at two positions sum to `value`. -/
structure Relation where
  first : Nat
  second : Nat
  value : Bool
deriving DecidableEq

namespace Relation

def difference (pattern : List Bool) (position : Nat) : Bool := pattern.getD position false

/-- Whether the patterns disagree on the difference at a position. -/
def isFree (patterns : List (List Bool)) (position : Nat) : Bool :=
  patterns.any (difference · position) && patterns.any (!difference · position)

def constantSum? (patterns : List (List Bool)) (p q : Nat) : Option Bool :=
  match patterns with
  | [] => none
  | s :: ss =>
    let value := difference s p ^^ difference s q
    if ss.all fun s => (difference s p ^^ difference s q) == value then some value else none

/-- The relations between the positions of a list, in the order of the list. -/
def among (patterns : List (List Bool)) : List Nat → List Relation
  | [] => []
  | p :: qs =>
    (qs.filterMap fun q => (constantSum? patterns p q).map (Relation.mk p q)) ++
      among patterns qs

def all (patterns : List (List Bool)) (positions : Nat) : List Relation :=
  among patterns ((List.range positions).filter (isFree patterns))

end Relation

end ShaDiff
