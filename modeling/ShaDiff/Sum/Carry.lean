import ShaDiff.Condition
import ShaDiff.Relation
import ShaDiff.Selection

/-!
# Carries of a sum of signed differences

Some words are to have signed differences that sum to a constant, modulo two to
the number of their bits. Columns are settled from the least significant one.
Each bit contributes a signed difference its condition allows; a carry into the
column, the contributions and the digit of the constant give the carry out,
where the total is even. Any carry may leave the last column.

Going up, the carries that can enter each column are collected. Columns make an
island until just one carry can leave, or there are no more. Then the island is
closed: coming back, only the contributions on a path to a carry that leaves the
island are kept. So a bit loses exactly the signed differences that no solution
uses.
-/

namespace ShaDiff.Sum

def total : List Int → Int
  | [] => 0
  | d :: ds => d + total ds

theorem total_append (ds es : List Int) : total (ds ++ es) = total ds + total es := by
  induction ds with
  | nil => simp [total]
  | cons d ds ih => simp [total, ih, Int.add_assoc]

/-- The carry out of a column, if the column agrees with its target digit. -/
def carryOut? (carry : Int) (contributions : List Int) (target : Bool) : Option Int :=
  let twice := carry + total contributions - target.toInt
  if twice % 2 = 0 then some (twice / 2) else none

/-- A way through a column: what each bit contributes, from a carry in to a carry out. -/
structure Way where
  enters : Int
  contributions : List Int
  leaves : Int

def ways (column : List Condition) (target : Bool) (carries : List Int) : List Way :=
  let options := selections (column.map (·.signedDifferences))
  carries.flatMap fun carry => options.filterMap fun contributions =>
    (carryOut? carry contributions target).map (Way.mk carry contributions)

def keep (ways : List Way) (carries : List Int) : List Way :=
  ways.filter fun way => carries.contains way.leaves

def entering (ways : List Way) : List Int := (ways.map (·.enters)).eraseDups

def leaving (ways : List Way) : List Int := (ways.map (·.leaves)).eraseDups

structure Settled where
  conditions : List Condition
  /-- The patterns of differences on some path, possibly repeated. -/
  patterns : List (List Bool)

def restrict (column : List Condition) (contributions : List (List Int)) : List Condition :=
  let used := contributions.foldl (List.zipWith fun c d => c.union (.ofSigned d))
    (List.replicate column.length .never)
  List.zipWith Condition.inter column used

def Settled.ofWays (column : List Condition) (ways : List Way) : Settled :=
  let contributions := ways.map (·.contributions)
  { conditions := restrict column contributions
    patterns := contributions.map (·.map (· != 0)) }

structure Crossing where
  column : List Condition
  ways : List Way

/-- Settles the columns of an island, the last one first, from the carries that may leave
it. The columns are put before others. -/
def closeIsland : List Crossing → (carries : List Int) → List Settled → Option (List Settled)
  | [], _, settled => some settled
  | crossing :: island, carries, settled =>
    let kept := keep crossing.ways carries
    if kept.isEmpty then none
    else closeIsland island (entering kept) (.ofWays crossing.column kept :: settled)

/-- Settles columns which the given carries may enter, after those of an island that is not
closed, the last one of which is first. -/
def islands : List (List Condition) → (constant : Nat) → (carries : List Int) → List Crossing →
    Option (List Settled)
  | [], _, carries, island => closeIsland island carries []
  | column :: rest, constant, carries, island =>
    let ways := ways column (constant % 2 == 1) carries
    if ways.isEmpty then none
    else
      let carries := leaving ways
      let island := ⟨column, ways⟩ :: island
      if carries.length = 1 then do
        let settled ← closeIsland island carries []
        return settled ++ (← islands rest (constant / 2) carries [])
      else islands rest (constant / 2) carries island

def columns (words : List (List Condition)) (size : Nat) : List (List Condition) :=
  (List.range size).map fun col => words.map fun word => word.getD col .any

def ofColumns (columns : List (List Condition)) (words : Nat) : List (List Condition) :=
  (List.range words).map fun i => columns.map fun column => column.getD i .any

/-- The settled columns of words of one size whose signed differences sum to
the constant. Without words the sum is zero. -/
def settleWords (words : List (List Condition)) (constant : Nat) : Option (List Settled) :=
  match words with
  | [] => if constant = 0 then some [] else none
  | word :: _ => islands (columns words word.length) constant [0] []

/-- Refines words of one size, each least significant bit first, so that their
signed differences sum to the constant. -/
def derive (words : List (List Condition)) (constant : Nat) : Option (List (List Condition)) :=
  (settleWords words constant).map fun settled =>
    ofColumns (settled.map (·.conditions)) words.length

end ShaDiff.Sum
