/-!
# Generalized conditions

Two instances of the hash function run side by side, so each bit of the
computation takes a pair of values. A condition is the set of pairs a bit may
still take, and a differential characteristic is written with one character a
bit. There are four pairs and hence sixteen conditions.

A condition is stored as a mask with one bit a pair, and `allows` is the view
through which every operation on conditions is described: two conditions with
the same view are equal (`ext`).
-/

namespace ShaDiff

structure Pair where
  first : Bool
  second : Bool
deriving DecidableEq

namespace Pair

def differs (p : Pair) : Bool := p.first ^^ p.second

/-- The difference of the two values as integers, so `1`, `0` or `-1`. -/
def signed (p : Pair) : Int := p.first.toInt - p.second.toInt

def index (p : Pair) : Nat := p.first.toNat + 2 * p.second.toNat

def all : List Pair := [⟨false, false⟩, ⟨true, false⟩, ⟨false, true⟩, ⟨true, true⟩]

theorem mem_all (p : Pair) : p ∈ all := by
  rcases p with ⟨_ | _, _ | _⟩ <;> decide

theorem index_lt (p : Pair) : p.index < 4 := by
  rcases p with ⟨_ | _, _ | _⟩ <;> decide

theorem index_inj {p q : Pair} : p.index = q.index ↔ p = q := by
  rcases p with ⟨_ | _, _ | _⟩ <;> rcases q with ⟨_ | _, _ | _⟩ <;> decide

end Pair

structure Condition where
  mask : BitVec 4
deriving DecidableEq

namespace Condition

/-- Written `#`, and met only as a contradiction. -/
def never : Condition := ⟨0⟩
def zero : Condition := ⟨1⟩
def one : Condition := ⟨8⟩
/-- A difference whose first value is 1. -/
def u : Condition := ⟨2⟩
/-- A difference whose first value is 0. -/
def n : Condition := ⟨4⟩
def x : Condition := ⟨6⟩
/-- Written `-`. -/
def same : Condition := ⟨9⟩
/-- Written `?`. -/
def any : Condition := ⟨15⟩

instance : Inhabited Condition := ⟨any⟩

def allows (c : Condition) (p : Pair) : Bool := c.mask.getLsbD p.index

theorem ext {c d : Condition} (h : ∀ p, c.allows p = d.allows p) : c = d := by
  rcases c with ⟨c⟩
  rcases d with ⟨d⟩
  congr 1
  apply BitVec.eq_of_getLsbD_eq
  intro i hi
  match i, hi with
  | 0, _ => exact h ⟨false, false⟩
  | 1, _ => exact h ⟨true, false⟩
  | 2, _ => exact h ⟨false, true⟩
  | 3, _ => exact h ⟨true, true⟩

def pairs (c : Condition) : List Pair := Pair.all.filter c.allows

theorem mem_pairs {c : Condition} {p : Pair} : p ∈ c.pairs ↔ c.allows p = true := by
  simp [pairs, Pair.mem_all]

def only : Pair → Condition
  | ⟨false, false⟩ => zero
  | ⟨true, false⟩ => u
  | ⟨false, true⟩ => n
  | ⟨true, true⟩ => one

theorem allows_only (p q : Pair) : (only p).allows q = decide (p = q) := by
  rcases p with ⟨_ | _, _ | _⟩ <;> rcases q with ⟨_ | _, _ | _⟩ <;> decide

def union (c d : Condition) : Condition := ⟨c.mask ||| d.mask⟩

theorem allows_union (c d : Condition) (p : Pair) :
    (c.union d).allows p = (c.allows p || d.allows p) := by
  simp [union, allows]

def inter (c d : Condition) : Condition := ⟨c.mask &&& d.mask⟩

theorem allows_inter (c d : Condition) (p : Pair) :
    (c.inter d).allows p = (c.allows p && d.allows p) := by
  simp [inter, allows]

theorem allows_never (p : Pair) : never.allows p = false := by
  rcases p with ⟨_ | _, _ | _⟩ <;> decide

theorem allows_any (p : Pair) : any.allows p = true := by
  rcases p with ⟨_ | _, _ | _⟩ <;> decide

def ofPairs (ps : List Pair) : Condition := ps.foldr (fun p c => (only p).union c) never

theorem allows_ofPairs (ps : List Pair) (p : Pair) :
    (ofPairs ps).allows p = true ↔ p ∈ ps := by
  induction ps with
  | nil => simp [ofPairs, allows_never]
  | cons q qs ih =>
    have h : ofPairs (q :: qs) = (only q).union (ofPairs qs) := rfl
    rw [h, allows_union, allows_only, Bool.or_eq_true, ih, List.mem_cons, decide_eq_true_iff,
      eq_comm]

def subset (c d : Condition) : Bool := c.mask &&& ~~~d.mask == 0

theorem subset_iff {c d : Condition} :
    c.subset d = true ↔ ∀ p, c.allows p = true → d.allows p = true := by
  rcases c with ⟨c⟩
  rcases d with ⟨d⟩
  have key : ∀ c d : BitVec 4, (c &&& ~~~d == 0) = true ↔
      (c.getLsbD 0 → d.getLsbD 0) ∧ (c.getLsbD 1 → d.getLsbD 1) ∧
      (c.getLsbD 2 → d.getLsbD 2) ∧ (c.getLsbD 3 → d.getLsbD 3) := by decide
  refine (key c d).trans ⟨fun h p => ?_, fun h => ?_⟩
  · rcases p with ⟨_ | _, _ | _⟩
    · exact h.1
    · exact h.2.2.1
    · exact h.2.1
    · exact h.2.2.2
  · exact ⟨h ⟨false, false⟩, h ⟨true, false⟩, h ⟨false, true⟩, h ⟨true, true⟩⟩

/-- Whether `c` says strictly more about a bit than `d`. -/
def refines (c d : Condition) : Bool := c.subset d && c != d

/-- Whether all pairs of the condition have one signed difference. -/
def grounded (c : Condition) : Bool :=
  c != never && (c.subset same || c == u || c == n)

def signed? (c : Condition) : Option Int :=
  if c = u then some 1
  else if c = n then some (-1)
  else if c.grounded then some 0
  else none

/-- All pairs whose signed difference has the sign of `d`. -/
def ofSigned (d : Int) : Condition :=
  if 0 < d then u else if d < 0 then n else same

def signedDifferences (c : Condition) : List Int :=
  [-1, 0, 1].filter fun d => c.inter (ofSigned d) != never

/-- Whether the two values differ, where all pairs agree on it. -/
def difference? (c : Condition) : Option Bool :=
  if c = never then none
  else if c.subset same then some false
  else if c.subset x then some true
  else none

instance : Ord Condition := ⟨compareOn mask⟩
instance : Std.TransOrd Condition := inferInstanceAs (Std.TransCmp (compareOn mask))
instance : Std.LawfulEqOrd Condition where
  eq_of_compare {c d} h := by
    rcases c with ⟨c⟩
    rcases d with ⟨d⟩
    exact congrArg _ (Std.LawfulEqOrd.eq_of_compare h)

/-! ## Characters -/

def letters : List Char :=
  ['#', '0', 'u', '3', 'n', '5', 'x', '7', '1', '-', 'A', 'B', 'C', 'D', 'E', '?']

def toChar (c : Condition) : Char := letters.getD c.mask.toNat '#'

def ofChar? (ch : Char) : Option Condition :=
  (letters.idxOf? ch).map fun i => ⟨BitVec.ofNat 4 i⟩

theorem ofChar?_toChar (c : Condition) : ofChar? c.toChar = some c := by
  rcases c with ⟨c⟩
  revert c
  decide

def parse? (s : String) : Option (List Condition) := s.toList.mapM ofChar?

def render (cs : List Condition) : String := String.ofList (cs.map toChar)

end Condition

end ShaDiff
