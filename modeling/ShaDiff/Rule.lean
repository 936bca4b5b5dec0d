import ShaDiff.Fault
import ShaDiff.Memo
import ShaDiff.Text.Line

/-!
# Rule databases

A rule database is a text of results of columns, one `<gate> <inputs> <outputs>`
a line: what propagation of the inputs against unknown outputs gives, or a
contradiction if the outputs contain one. Its records are put into a cache. A
record that cannot be read ends the reading, and those before it stay.
-/

namespace ShaDiff

structure Rule where
  gate : Gate
  inputs : List Condition
  outputs : List Condition
deriving DecidableEq

namespace Rule

/-- Reads the record of a line, of which the patterns are looked at first. -/
def ofFields (number : Nat) (name inputs outputs : String) : Except Fault Rule :=
  match Condition.parse? inputs, Condition.parse? outputs with
  | some inputs, some outputs =>
    match Gate.ofName? name inputs.length with
    | none =>
      .error (if Gate.names.contains name then .pattern number else .unknownOperation number)
    | some gate =>
      if outputs.length = gate.width then .ok ⟨gate, inputs, outputs⟩
      else .error (.pattern number)
  | _, _ => .error (.pattern number)

def ofLine (number : Nat) (line : Text.Line) : Except Fault (Option Rule) :=
  match line with
  | none => .error (.line number)
  | some s =>
    match Text.fields s with
    | [] => .ok none
    | [name, inputs, outputs] => (ofFields number name inputs outputs).map some
    | _ => .error (.line number)

def key (r : Rule) : ColumnKey := ⟨r.gate, r.inputs, List.replicate r.outputs.length .any⟩

def outcome (r : Rule) : Option Column.Outcome :=
  if r.outputs.contains .never then none
  else some { inputs := r.inputs, outputs := r.outputs, relations := [] }

/-- Puts the records of numbered lines into a cache. Answers their number, or
the first fault. -/
def load (cache : ColumnCache) (count : Nat) :
    List (Text.Line × Nat) → Except Fault Nat × ColumnCache
  | [] => (.ok count, cache)
  | (line, number) :: rest =>
    match ofLine number line with
    | .error fault => (.error fault, cache)
    | .ok none => load cache count rest
    | .ok (some r) => load (cache.insert r.key r.outcome) (count + 1) rest

def read (cache : ColumnCache) (lines : List Text.Line) : Except Fault Nat × ColumnCache :=
  load cache 0 (lines.zipIdx 1)

end Rule

end ShaDiff
