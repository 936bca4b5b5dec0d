/-!
# Selections

A selection takes one element of each list of a family. Propagation of a column
and derivation of words both run through the selections of what their
conditions allow.
-/

namespace ShaDiff

/-- Every selection, those with an early first element before the others. -/
def selections : List (List α) → List (List α)
  | [] => [[]]
  | options :: family =>
    let rest := selections family
    options.flatMap fun a => rest.map (a :: ·)

theorem mem_selections_cons {options : List α} {family : List (List α)} {s : List α} :
    s ∈ selections (options :: family) ↔ ∃ a ∈ options, ∃ r ∈ selections family, a :: r = s := by
  simp [selections]

theorem length_of_mem_selections {family : List (List α)} {s : List α}
    (h : s ∈ selections family) : s.length = family.length := by
  induction family generalizing s with
  | nil => simp_all [selections]
  | cons options family ih =>
    obtain ⟨a, _, r, hr, rfl⟩ := mem_selections_cons.1 h
    simp [ih hr]

end ShaDiff
