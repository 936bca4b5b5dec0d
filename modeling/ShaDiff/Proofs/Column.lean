import ShaDiff.Column
import ShaDiff.Proofs.Selections

/-!
# Propagation of a column loses no pair

The pairs of a column on which a gate holds in both instances are among its
survivors. So a column with such pairs is not contradictory, its refined conditions
allow them, and they agree with all relations that are found (`propagate_sound`).
-/

namespace ShaDiff.Column

open Condition (Allow Covers)

variable {g : Gate} {inputs outputs : List Condition} {ps qs : List Pair}

theorem allowed_of_allow {cs : List Condition} (h : Allow cs ps) : allowed cs ps = true := by
  induction h with
  | nil => rfl
  | cons hp _ ih => exact Bool.and_eq_true_iff.mpr ⟨hp, ih⟩

theorem mem_survivors (hi : Allow inputs ps) (ho : Allow outputs (image g outputs.length ps)) :
    ps ++ image g outputs.length ps ∈ survivors g inputs outputs := by
  refine List.mem_filterMap.mpr ⟨ps, mem_selections.mpr ?_, if_pos (allowed_of_allow ho)⟩
  rw [List.forall₂_map_right_iff]
  exact hi.flip.imp fun _ _ hp => Condition.mem_pairs.mpr hp

theorem length_of_mem_survivors {s : List Pair} (h : s ∈ survivors g inputs outputs) :
    s.length = inputs.length + outputs.length := by
  obtain ⟨ps, hps, h⟩ := List.mem_filterMap.mp h
  simp only [Option.ite_none_right_eq_some, Option.some.injEq] at h
  obtain ⟨-, rfl⟩ := h
  simp [length_of_mem_selections hps, length_image]

theorem allow_seen {survivors : List (List Pair)} {n : Nat}
    (hl : ∀ s ∈ survivors, s.length = n) {s : List Pair} (hs : s ∈ survivors) :
    Allow (seen survivors n) s := by
  have hcover : Covers Condition.only (seen survivors n) s :=
    Condition.covers_foldl List.length_replicate hl (.inl hs)
  exact hcover.imp fun c p h => h p (by simp [Condition.allows_only])

theorem propagate_sound (hi : Allow inputs ps) (ho : Allow outputs qs)
    (hq : qs = image g outputs.length ps) :
    ∃ outcome, propagate g inputs outputs = some outcome ∧
      Allow outcome.inputs ps ∧ Allow outcome.outputs qs ∧
      ∀ r ∈ outcome.relations, ∃ p q, (ps ++ qs)[r.first]? = some p ∧
        (ps ++ qs)[r.second]? = some q ∧ (p.differs ^^ q.differs) = r.value := by
  subst hq
  have hmem := mem_survivors hi ho
  have hlen := length_of_mem_survivors hmem
  have hsome : (survivors g inputs outputs).isEmpty = false := by
    cases hs : survivors g inputs outputs with
    | nil => exact absurd (hs ▸ hmem) List.not_mem_nil
    | cons => rfl
  refine ⟨_, if_neg (by simp [hsome]), ?_⟩
  have hseen := allow_seen (fun s => length_of_mem_survivors) hmem
  have htake : (seen (survivors g inputs outputs) (inputs.length + outputs.length)).take
      inputs.length ++ _ = _ := List.take_append_drop _ _
  rw [← htake] at hseen
  obtain ⟨h1, h2⟩ := hseen.split (by
    have := hseen.length_eq
    simp only [List.length_append, List.length_take, List.length_drop] at this hlen ⊢
    have := hi.length_eq
    omega)
  refine ⟨h1, h2, fun r hr => ?_⟩
  obtain ⟨hf, hs, hsum⟩ := Relation.sum_of_mem_all hr
  have hpattern := hsum _ (List.mem_map.mpr ⟨_, hmem, rfl⟩)
  obtain ⟨p, hp⟩ : ∃ p, (ps ++ image g outputs.length ps)[r.first]? = some p :=
    ⟨_, List.getElem?_eq_getElem (hlen ▸ hf)⟩
  obtain ⟨q, hq⟩ : ∃ q, (ps ++ image g outputs.length ps)[r.second]? = some q :=
    ⟨_, List.getElem?_eq_getElem (hlen ▸ hs)⟩
  refine ⟨p, q, hp, hq, ?_⟩
  simpa only [Relation.difference, List.getD_eq_getElem?_getD, List.getElem?_map, hp, hq,
    Option.map_some, Option.getD_some] using hpattern

end ShaDiff.Column
