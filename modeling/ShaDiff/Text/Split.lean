import ShaDiff.Text.Blank

/-!
# Pieces of a text

A text is cut at separators, which belong to no piece. Joining the pieces of a
cut at one element gives the text back (`join_split`).
-/

namespace ShaDiff.Text

/-- Cuts before and after each separator, so there is one piece more than
separators. -/
def split (isSeparator : α → Bool) : List α → List (List α)
  | [] => [[]]
  | a :: as =>
    if isSeparator a then [] :: split isSeparator as
    else
      match split isSeparator as with
      | [] => [[a]]
      | piece :: pieces => (a :: piece) :: pieces

theorem split_ne_nil (isSeparator : α → Bool) (as : List α) : split isSeparator as ≠ [] := by
  cases as with
  | nil => simp [split]
  | cons a as =>
    unfold split
    split
    · simp
    · split <;> simp

def join (separator : α) : List (List α) → List α
  | [] => []
  | [piece] => piece
  | piece :: pieces => piece ++ separator :: join separator pieces

theorem join_cons {separator : α} {piece : List α} {pieces : List (List α)} (h : pieces ≠ []) :
    join separator (piece :: pieces) = piece ++ separator :: join separator pieces := by
  cases pieces with
  | nil => exact absurd rfl h
  | cons => rfl

theorem join_split [BEq α] [LawfulBEq α] (separator : α) (as : List α) :
    join separator (split (· == separator) as) = as := by
  induction as with
  | nil => rfl
  | cons a as ih =>
    unfold split
    split
    · next h => rw [join_cons (split_ne_nil _ _), ih, eq_of_beq h]; rfl
    · cases hs : split (· == separator) as with
      | nil => exact absurd hs (split_ne_nil _ _)
      | cons piece pieces =>
        rw [hs] at ih
        cases pieces with
        | nil => simp only [join] at ih ⊢; rw [ih]
        | cons p ps => simp only [join] at ih ⊢; rw [List.cons_append, ih]

def fields (s : String) : List String :=
  ((split isBlank s.toList).filter (!·.isEmpty)).map String.ofList

def splitAt (c : Char) (s : String) : List String :=
  (split (· == c) s.toList).map String.ofList

end ShaDiff.Text
