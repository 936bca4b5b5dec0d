import ShaDiff.Text.Split

/-!
# Lines

A line ends with a line feed, before which one carriage return belongs to the
end too. What follows the last line feed is a line of its own unless it is
empty, and keeps a carriage return. Lines of bytes need not be a text.
-/

namespace ShaDiff.Text

/-- A line, or `none` where its bytes are no text. -/
abbrev Line := Option String

def dropLast? [BEq α] (a : α) (as : List α) : List α :=
  if as.getLast? == some a then as.dropLast else as

def ofPieces [BEq α] (carriageReturn : α) : List (List α) → List (List α)
  | [] => []
  | [last] => if last.isEmpty then [] else [last]
  | piece :: pieces => dropLast? carriageReturn piece :: ofPieces carriageReturn pieces

def lines (s : String) : List Line :=
  (ofPieces '\r' (split (· == '\n') s.toList)).map fun cs => some (String.ofList cs)

def linesOfBytes (bytes : List UInt8) : List Line :=
  (ofPieces 13 (split (· == 10) bytes)).map fun bs => String.fromUTF8? ⟨bs.toArray⟩

end ShaDiff.Text
