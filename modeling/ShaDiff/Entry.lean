import ShaDiff.Fault
import ShaDiff.Text.Numeral
import ShaDiff.Text.Split

/-!
# Names of configuration entries

A configuration is a list of names, each with an identifier. A bit is named
`<role>_<round>_<column>`, and one slot of a bit by a suffix `_f` or `_g`. The
two other names are `order` and `zero`.
-/

namespace ShaDiff

inductive Entry
  /-- The number of rounds. -/
  | order
  /-- The first atom of the zero word. -/
  | zero
  /-- The first atom of a bit, or the atom of one slot of a bit. -/
  | bit (role : Role) (round : Int) (column : Nat) (slot : Option Nat)
deriving DecidableEq

namespace Entry

def slotOfSuffix? : String → Option Nat
  | "f" => some 0
  | "g" => some 1
  | _ => none

/-- Reads the parts of a name of a bit. Of two faults the role's comes first. -/
def ofParts (name role round column : String) (suffix : Option String) : Except Fault Entry :=
  match Role.ofName? role with
  | none => .error (.unknownRole role)
  | some role =>
    match Text.signed? 32 round, Text.unsigned? 64 column, suffix.map slotOfSuffix? with
    | some round, some column, none => .ok (.bit role round column none)
    | some round, some column, some (some slot) => .ok (.bit role round column (some slot))
    | _, _, _ => .error (.malformedName name)

def parse (name : String) : Except Fault Entry :=
  if name = "order" then .ok order
  else if name = "zero" then .ok zero
  else
    match Text.splitAt '_' name with
    | [role, round, column] => ofParts name role round column none
    | [role, round, column, suffix] => ofParts name role round column (some suffix)
    | _ => .error (.malformedName name)

def suffix : Option Nat → String
  | none => ""
  | some 0 => "_f"
  | some _ => "_g"

def name : Entry → String
  | order => "order"
  | zero => "zero"
  | bit role round column slot => s!"{role.name}_{round}_{column}{suffix slot}"

end Entry

end ShaDiff
