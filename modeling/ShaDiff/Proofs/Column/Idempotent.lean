import Mathlib.Data.List.Sort
import ShaDiff.Proofs.Column.Related

/-!
# A refined column is refined no further

The refined conditions of a column have just the solutions which the given ones have
(`Exact.solves_iff`). A second propagation may select pairs in another order, but the
conditions and relations that it finds depend on the set of survivors only, so it gives the
outcome it is applied to (`checked_idempotent`).
-/

namespace ShaDiff

namespace Relation

variable {patterns patterns' : List (List Bool)}

instance : Std.Irrefl Before where
  irrefl r h := by
    unfold Before at h
    omega

instance : Std.Antisymm Before where
  antisymm r s h h' := by
    unfold Before at h h'
    omega

theorem isFree_congr (h : ∀ s, s ∈ patterns ↔ s ∈ patterns') :
    isFree patterns = isFree patterns' := by
  funext p
  apply Bool.eq_iff_iff.mpr
  simp only [isFree_iff, h]

theorem all_congr {positions : Nat} (hne : patterns ≠ [])
    (h : ∀ s, s ∈ patterns ↔ s ∈ patterns') : all patterns positions = all patterns' positions := by
  have hne' : patterns' ≠ [] := by
    rintro rfl
    exact hne (List.eq_nil_iff_forall_not_mem.mpr fun s hs => List.not_mem_nil ((h s).mp hs))
  apply (pairwise_all _ _).eq_of_mem_iff (pairwise_all _ _)
  intro r
  simp only [mem_all_iff hne, mem_all_iff hne', isFree_congr h, h]

end Relation

namespace Column

open Condition (Allow)

variable {g : Gate} {inputs outputs : List Condition} {ps : List Pair} {outcome outcome' : Outcome}

/-- The pairs of a solution stay allowed, and no others become so. -/
theorem Exact.solves_iff (h : Exact g inputs outputs outcome) :
    Solves g outcome.inputs outcome.outputs ps ↔ Solves g inputs outputs ps := by
  constructor
  · obtain ⟨hi, ho⟩ := h.within
    exact fun hps => hps.mono hi ho
  · intro hps
    have hlength : outcome.inputs.length = ps.length := by
      rw [h.length_inputs, hps.1.length_eq]
    have hallow : Allow (outcome.inputs ++ outcome.outputs)
        (ps ++ image g outcome.outputs.length ps) := by
      refine List.forall₂_iff_get.mpr ⟨by simp [hlength, length_image], fun k hc hp => ?_⟩
      refine (h.allows (List.getElem?_eq_getElem hc) _).mpr ⟨ps, hps, ?_⟩
      rw [← h.length_outputs]
      exact List.getElem?_eq_getElem hp
    exact hallow.split hlength

theorem Exact.mem_survivors (h : Exact g inputs outputs outcome) {s : List Pair} :
    s ∈ survivors g outcome.inputs outcome.outputs ↔ s ∈ survivors g inputs outputs := by
  simp only [mem_survivors_iff, h.solves_iff, h.length_outputs]

/-- What refines the refined conditions exactly are the refined conditions. -/
theorem Exact.conditions_eq (h : Exact g inputs outputs outcome)
    (h' : Exact g outcome.inputs outcome.outputs outcome') :
    outcome'.inputs = outcome.inputs ∧ outcome'.outputs = outcome.outputs := by
  apply List.append_inj _ h'.length_inputs
  apply List.ext_getElem
  · simp [h'.length_inputs, h'.length_outputs]
  · intro k hk hk'
    apply Condition.ext
    intro p
    rw [Bool.eq_iff_iff, h.allows (List.getElem?_eq_getElem hk'),
      h'.allows (List.getElem?_eq_getElem hk)]
    simp only [h.solves_iff, h.length_outputs]

theorem propagate_idempotent (h : propagate g inputs outputs = some outcome) :
    propagate g outcome.inputs outcome.outputs = some outcome := by
  have hexact := exact_propagate h
  obtain ⟨hne, hrelations⟩ := relations_propagate h
  cases h' : propagate g outcome.inputs outcome.outputs with
  | none =>
    obtain ⟨ps, hps⟩ := hexact.solvable
    exact absurd (hexact.solves_iff.mpr hps) (propagate_eq_none.mp h' ps)
  | some outcome' =>
    obtain ⟨hne', hrelations'⟩ := relations_propagate h'
    obtain ⟨hinputs, houtputs⟩ := hexact.conditions_eq (exact_propagate h')
    have hsame : outcome'.relations = outcome.relations := by
      rw [hrelations, hrelations', hexact.length_inputs, hexact.length_outputs]
      apply Relation.all_congr (by simpa using hne')
      simp only [List.mem_map, hexact.mem_survivors, implies_true]
    cases outcome
    cases outcome'
    simp_all

/-- A column that was refined is refined to itself, with the same relations in the same
order. -/
theorem checked_idempotent (h : checked g inputs outputs = .ok (some outcome)) :
    checked g outcome.inputs outcome.outputs = .ok (some outcome) := by
  unfold checked at h
  dsimp only at h
  split at h
  · next hmax =>
    have hpropagate := Except.ok.inj h
    have hexact := exact_propagate hpropagate
    unfold checked
    simp only [hexact.length_inputs, hexact.length_outputs, if_pos hmax,
      propagate_idempotent hpropagate]
  · cases h

theorem checked_idempotent_xor3 :
    checked .xor3 [.any, ⟨11⟩, .zero] [.n] =
        .ok (some ⟨[⟨14⟩, ⟨11⟩, .zero], [.n], [⟨0, 1, true⟩]⟩) ∧
      checked .xor3 [⟨14⟩, ⟨11⟩, .zero] [.n] =
        .ok (some ⟨[⟨14⟩, ⟨11⟩, .zero], [.n], [⟨0, 1, true⟩]⟩) := by
  have hrun : checked .xor3 [.any, ⟨11⟩, .zero] [.n] =
      .ok (some ⟨[⟨14⟩, ⟨11⟩, .zero], [.n], [⟨0, 1, true⟩]⟩) := by decide +kernel
  exact ⟨hrun, checked_idempotent hrun⟩

end Column

end ShaDiff
