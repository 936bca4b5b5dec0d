import ShaDiff.Proofs.Column.Free
import ShaDiff.Proofs.Clauses
import ShaDiff.Proofs.Marks
import ShaDiff.Proofs.Sum.Signs

/-!
# Propagation comes to a fixpoint

Between two searches each column is marked, or forces literals only that are yet to be
given, and each sum is marked, or settled, or awaits a literal that refines one of its
bits (`Underway`). A refresh marks all readers of a bit it refines, so nothing that was
settled has to be looked at again unless it is marked. A search without a result leaves no
mark, and then no column and no sum forces anything (`Fixpoint`).
-/

namespace ShaDiff

theorem Condition.subset_refl (c : Condition) : c.subset c = true :=
  subset_iff.mpr fun _ hx => hx

theorem Condition.subset_trans {c d e : Condition} (h : c.subset d = true)
    (h' : d.subset e = true) : c.subset e = true :=
  subset_iff.mpr fun x hx => subset_iff.mp h' x (subset_iff.mp h x hx)

theorem Condition.subset_antisymm {c d : Condition} (h : c.subset d = true)
    (h' : d.subset c = true) : c = d :=
  ext fun p => Bool.eq_iff_iff.mpr ⟨subset_iff.mp h p, subset_iff.mp h' p⟩

namespace Propagator

variable {ρ : Type} {p q : Propagator ρ} {o : Operation} {j : Nat} {s : SumEquation} {b : Bit}
  {c : Condition} {l : Literal} {ls ls' : List Literal}

-- ---------------------------------------------------------------------------
-- Fixpoints
-- ---------------------------------------------------------------------------

/-- Whether a column is not contradictory and forces no literals without value but some. -/
def ColumnForces (p : Propagator ρ) (o : Operation) (column : Nat) (ls : List Literal) : Prop :=
  ∃ outcome, Column.propagate o.gate ((p.topology.inputBits o column).map p.condition)
      ((p.topology.outputBits o column).map p.condition) = some outcome ∧
    ∀ l ∈ p.columnLiterals o (p.topology.inputBits o column) (p.topology.outputBits o column)
      outcome, l ∈ ls

/-- Whether a sum is not contradictory and forces no literal without value. -/
def SumSettled (p : Propagator ρ) (s : SumEquation) : Prop :=
  match Sum.propagate (s.positive.map p.wordConditions) (s.negative.map p.wordConditions) with
  | .skipped => True
  | .contradiction => False
  | .refined refined _ => ∀ b c, (b, c) ∈ refinedBits s.words refined → p.forced b c = []

/-- Whether no column and, with wordwise propagation, no sum is contradictory or forces a
literal without value. -/
structure Fixpoint (p : Propagator ρ) : Prop where
  column : ∀ o ∈ p.topology.operations, ∀ j < p.topology.wordSize, p.ColumnForces o j []
  sum : p.config.wordwise = true → ∀ s ∈ p.topology.sums, p.SumSettled s

-- ---------------------------------------------------------------------------
-- More values
-- ---------------------------------------------------------------------------

def Extends (p q : Propagator ρ) : Prop := ∀ a v, p.value? a = some v → q.value? a = some v

theorem Extends.literal? (h : p.Extends q) {v : Bool} (hl : p.literal? l = some v) :
    q.literal? l = some v :=
  literal?_eq_some.mpr (h _ _ (literal?_eq_some.mp hl))

theorem Extends.literal?_eq_none (h : p.Extends q) (hl : q.literal? l = none) :
    p.literal? l = none := by
  cases hp : p.literal? l with
  | none => rfl
  | some v => exact nomatch (h.literal? hp).symm.trans hl

theorem Asked.extends (h : p.Asked q) : p.Extends q := fun a _ hv => (h.value? a).trans hv

theorem Extends.mem_forced (h : p.Extends q) (htopology : q.topology = p.topology)
    (hcondition : q.condition b = p.condition b) (hl : l ∈ q.forced b c) : l ∈ p.forced b c := by
  have hnone := h.literal?_eq_none (literal?_of_mem_forced hl)
  unfold forced at hl ⊢
  rw [hcondition] at hl
  split at hl
  · cases hl
  · next hne =>
    rw [if_neg hne, List.mem_filter]
    rw [encoding, htopology] at hl
    exact ⟨(List.mem_filter.mp hl).1, by simp [hnone]⟩

theorem mem_columnLiterals {inputBits outputBits : List Bit} {outcome : Column.Outcome} :
    l ∈ p.columnLiterals o inputBits outputBits outcome ↔
      (∃ b c, (b, c) ∈ inputBits.zip outcome.inputs ∧ l ∈ p.forced b c) ∨
      ∃ b c, (b, c) ∈ (outputBits.zip outcome.outputs).drop (suppresses o inputBits).toNat ∧
        l ∈ p.forced b c := by
  have hdrop (xs : List (Bit × Condition)) :
      (if suppresses o inputBits = true then xs.drop 1 else xs) =
        xs.drop (suppresses o inputBits).toNat := by
    cases suppresses o inputBits <;> rfl
  simp only [columnLiterals, hdrop, List.mem_eraseDups, List.mem_flatMap, List.mem_append,
    Prod.exists, or_and_right, exists_or]

theorem ColumnForces.mono (h : p.ColumnForces o j ls) (htopology : q.topology = p.topology)
    (hcondition : ∀ b ∈ p.topology.inputBits o j ++ p.topology.outputBits o j,
      q.condition b = p.condition b) (hvalues : p.Extends q)
    (hls : ∀ l ∈ ls, l ∈ ls' ∨ q.literal? l ≠ none) : q.ColumnForces o j ls' := by
  obtain ⟨outcome, houtcome, hall⟩ := h
  have hinputs : (p.topology.inputBits o j).map q.condition =
      (p.topology.inputBits o j).map p.condition :=
    List.map_congr_left fun b hb => hcondition b (List.mem_append_left _ hb)
  have houtputs : (p.topology.outputBits o j).map q.condition =
      (p.topology.outputBits o j).map p.condition :=
    List.map_congr_left fun b hb => hcondition b (List.mem_append_right _ hb)
  refine ⟨outcome, by rw [htopology, hinputs, houtputs, houtcome], fun l hl => ?_⟩
  rw [htopology] at hl
  have hmem : l ∈ p.columnLiterals o (p.topology.inputBits o j) (p.topology.outputBits o j)
      outcome := by
    rw [mem_columnLiterals] at hl ⊢
    rcases hl with ⟨b, c, hzip, hl⟩ | ⟨b, c, hzip, hl⟩
    · have hb := List.mem_append_left (p.topology.outputBits o j) (List.of_mem_zip hzip).1
      exact .inl ⟨b, c, hzip, hvalues.mem_forced htopology (hcondition b hb) hl⟩
    · have hb := List.mem_append_right (p.topology.inputBits o j)
        (List.of_mem_zip (List.mem_of_mem_drop hzip)).1
      exact .inr ⟨b, c, hzip, hvalues.mem_forced htopology (hcondition b hb) hl⟩
  obtain ⟨b, c, hforced, -⟩ := exists_of_mem_columnLiterals hl
  exact (hls l (hall l hmem)).resolve_right (absurd (literal?_of_mem_forced hforced))

-- ---------------------------------------------------------------------------
-- Bits of a sum
-- ---------------------------------------------------------------------------

theorem wordConditions_eq (hcondition : ∀ b ∈ s.words.flatMap p.topology.wordBits,
    q.condition b = p.condition b) (htopology : q.topology = p.topology) :
    s.positive.map q.wordConditions = s.positive.map p.wordConditions ∧
      s.negative.map q.wordConditions = s.negative.map p.wordConditions := by
  have hword (w : Nat) (hw : w ∈ s.words) : q.wordConditions w = p.wordConditions w := by
    rw [wordConditions, wordConditions, htopology]
    exact List.map_congr_left fun b hb => hcondition b (List.mem_flatMap.mpr ⟨w, hw, hb⟩)
  exact ⟨List.map_congr_left fun w hw => hword w (List.mem_append_left _ hw),
    List.map_congr_left fun w hw => hword w (List.mem_append_right _ hw)⟩

/-- A sum refines its bits by their signed differences. -/
theorem signwise_of_mem_refinedBits {refined : List (List Condition)}
    {relations : List Sum.WordRelation}
    (h : Sum.propagate (s.positive.map p.wordConditions) (s.negative.map p.wordConditions) =
      .refined refined relations) (hmem : (b, c) ∈ refinedBits s.words refined) :
    b ∈ s.words.flatMap p.topology.wordBits ∧ (p.condition b).Signwise c := by
  have hsize : ∀ w ∈ s.positive.map p.wordConditions ++ s.negative.map p.wordConditions,
      w.length = p.topology.wordSize := by
    intro w hw
    rw [← List.map_append] at hw
    obtain ⟨word, -, rfl⟩ := List.mem_map.mp hw
    simp [wordConditions, Topology.wordBits]
  have hsign := Sum.signwise_propagate hsize h
  simp only [refinedBits, List.mem_flatMap, List.mem_reverse, List.mem_map, Prod.mk.injEq] at hmem
  obtain ⟨⟨word, conditions⟩, hzip, ⟨c, column⟩, hc, rfl, rfl⟩ := hmem
  obtain ⟨i, hi⟩ := List.getElem?_of_mem hzip
  obtain ⟨hword, hconditions⟩ := List.getElem?_zip_eq_some.mp hi
  obtain ⟨cs, hcs, hsigns⟩ := hsign i (p.wordConditions word) (by
    rw [← List.map_append, List.getElem?_map, show s.positive ++ s.negative = s.words from rfl,
      hword, Option.map_some])
  obtain rfl := Option.some.inj (hconditions.symm.trans hcs)
  obtain ⟨hlt, hget⟩ := List.getElem?_eq_some_iff.mp (List.mem_zipIdx_iff_getElem?.mp hc)
  have hcolumn : column < p.topology.wordSize := by
    have := hsigns.length_eq ▸ hlt
    simpa [wordConditions, Topology.wordBits] using this
  refine ⟨List.mem_flatMap.mpr ⟨word, List.mem_of_getElem? hword, ?_⟩, ?_⟩
  · exact List.mem_map.mpr ⟨column, List.mem_range.mpr hcolumn, rfl⟩
  · have hentry := (List.forall₂_iff_get.mp hsigns).2 column (hsigns.length_eq ▸ hlt) hlt
    simp only [List.get_eq_getElem, hget] at hentry
    simpa [wordConditions, Topology.wordBits] using hentry

theorem SumSettled.mono (h : p.SumSettled s) (htopology : q.topology = p.topology)
    (hcondition : ∀ b ∈ s.words.flatMap p.topology.wordBits, q.condition b = p.condition b)
    (hvalues : p.Extends q) : q.SumSettled s := by
  obtain ⟨hpositive, hnegative⟩ := wordConditions_eq hcondition htopology
  unfold SumSettled at h ⊢
  rw [hpositive, hnegative]
  split
  · trivial
  · next heq => rwa [heq] at h
  · next refined relations heq =>
    rw [heq] at h
    intro b c hmem
    have hb := (signwise_of_mem_refinedBits heq hmem).1
    refine List.eq_nil_iff_forall_not_mem.mpr fun l hl => ?_
    have hl := hvalues.mem_forced htopology (hcondition b hb) hl
    rw [h b c hmem] at hl
    cases hl

-- ---------------------------------------------------------------------------
-- Nothing known
-- ---------------------------------------------------------------------------

theorem forced_of_isZero (hb : b.isZero = true) (c : Condition) : p.forced b c = [] := by
  refine List.eq_nil_iff_forall_not_mem.mpr fun l hl => ?_
  have hl := mem_forced hl
  have hslots : p.topology.slots b = [] := if_pos hb
  unfold Encoding.forced at hl
  split at hl
  · cases hl
  · obtain ⟨r, -, hr⟩ := List.mem_filterMap.mp hl
    simp [Encoding.Region.literal?, hslots] at hr

theorem forced_condition (p : Propagator ρ) (b : Bit) : p.forced b (p.condition b) = [] :=
  if_pos rfl

/-- The highest carry is left alone unless enough of the inputs are there. -/
theorem demand_zero_le {size : Nat} (hfed : Topology.Fed size o)
    (h : suppresses o (o.inputs.map (·.bit size j)) = false) :
    o.gate.demand 0 ≤ (o.inputs.map (·.bit size j)).countP (!·.isZero) := by
  have hinputs := hfed.inputs j
  cases hg : o.gate with
  | add n => simpa [suppresses, hg, Gate.demand] using h
  | _ => simpa [hg, Gate.demand] using hinputs

section

variable (hany : ∀ b ∈ p.topology.inputBits o j ++ p.topology.outputBits o j,
  b.isZero = false → p.condition b = .any)

include hany

theorem map_condition_outputBits {order : Nat} (hbuilt : p.topology.Built order)
    (ho : o ∈ p.topology.operations) :
    (p.topology.outputBits o j).map p.condition = List.replicate o.gate.width .any := by
  have hlength : ((p.topology.outputBits o j).map p.condition).length = o.gate.width := by
    rw [List.length_map, Topology.outputBits, List.length_map, hbuilt.outputs ho]
  refine List.eq_replicate_iff.mpr ⟨hlength, fun c hc => ?_⟩
  obtain ⟨b, hb, rfl⟩ := List.mem_map.mp hc
  obtain ⟨v, hv, rfl⟩ := List.mem_map.mp hb
  obtain ⟨w, rfl, hw⟩ := (hbuilt.fed ho).outputs v hv
  exact hany _ (List.mem_append_right _ hb) (Topology.isZero_whole hw j)

theorem condition_of_mem_inputBits (hb : b ∈ p.topology.inputBits o j) :
    p.condition b = if b.isZero then .zero else .any := by
  cases hz : b.isZero with
  | true => exact condition_of_isZero hz
  | false => exact hany b (List.mem_append_left _ hb) hz

theorem count_any_inputBits : ((p.topology.inputBits o j).map p.condition).count .any =
    (p.topology.inputBits o j).countP (!·.isZero) := by
  rw [List.count, List.countP_map]
  refine List.countP_congr fun b hb => ?_
  rw [Function.comp_apply, condition_of_mem_inputBits hany hb]
  cases b.isZero <;> decide

theorem not_mem_forced (hb : b ∈ p.topology.inputBits o j ++ p.topology.outputBits o j)
    (hc : b.isZero = false → c = .any) : l ∉ p.forced b c := by
  cases hz : b.isZero with
  | true =>
    rw [forced_of_isZero hz]
    exact List.not_mem_nil
  | false =>
    rw [hc hz, ← hany b hb hz, forced_condition]
    exact List.not_mem_nil

/-- A column of which nothing is known is not contradictory and forces nothing. -/
theorem columnForces_free {order : Nat} (hbuilt : p.topology.Built order)
    (ho : o ∈ p.topology.operations) : p.ColumnForces o j [] := by
  have hfed := hbuilt.fed ho
  have harity : ((p.topology.inputBits o j).map p.condition).length = o.gate.arity := by
    rw [List.length_map, Topology.inputBits, List.length_map, hfed.arity]
  have hinputs : ∀ c ∈ (p.topology.inputBits o j).map p.condition, c = .zero ∨ c = .any := by
    intro c hc
    obtain ⟨b, hb, rfl⟩ := List.mem_map.mp hc
    rw [condition_of_mem_inputBits hany hb]
    cases b.isZero <;> simp
  obtain ⟨outcome, houtcome, hin, hout⟩ := Column.propagate_free harity hinputs
  refine ⟨outcome, by rw [map_condition_outputBits hany hbuilt ho, houtcome], fun l hl => ?_⟩
  -- No bit that is there is refined, except a highest carry that is left alone.
  rcases mem_columnLiterals.mp hl with ⟨b, c, hzip, hl⟩ | ⟨b, c, hzip, hl⟩
  · obtain ⟨i, hi⟩ := List.getElem?_of_mem hzip
    obtain ⟨hb, hc⟩ := List.getElem?_zip_eq_some.mp hi
    have hmem := List.mem_append_left (p.topology.outputBits o j) (List.mem_of_getElem? hb)
    refine absurd hl (not_mem_forced hany hmem fun hz => hin i c hc ?_)
    rw [List.getElem?_map, hb, Option.map_some, hany b hmem hz]
  · obtain ⟨i, hi⟩ := List.getElem?_of_mem hzip
    rw [List.getElem?_drop] at hi
    obtain ⟨hb, hc⟩ := List.getElem?_zip_eq_some.mp hi
    have hmem := List.mem_append_right (p.topology.inputBits o j) (List.mem_of_getElem? hb)
    refine absurd hl (not_mem_forced hany hmem fun _ => hout _ c hc ?_)
    rw [count_any_inputBits hany]
    cases hs : suppresses o (p.topology.inputBits o j) with
    | true =>
      exact Nat.le_trans (Gate.demand_le _ (by simp)) (hfed.inputs j)
    | false =>
      cases i with
      | zero => exact demand_zero_le hfed hs
      | succ i => exact Nat.le_trans (Gate.demand_le _ (by simp)) (hfed.inputs j)

end

theorem isGrounded_replicate_any {n : Nat} :
    Sum.isGrounded (List.replicate n Condition.any) = (n == 0) := by
  have hany : Condition.any.grounded = false := rfl
  cases n <;> simp [Sum.isGrounded, List.replicate_succ, hany]

/-- A sum of which nothing is known says nothing. -/
theorem propagate_sum_free {order : Nat} (hbuilt : p.topology.Built order)
    (hs : s ∈ p.topology.sums) (hany : ∀ b ∈ s.words.flatMap p.topology.wordBits,
      b.isZero = false → p.condition b = .any) :
    Sum.propagate (s.positive.map p.wordConditions) (s.negative.map p.wordConditions) =
      .skipped := by
  obtain ⟨hpositive, hnegative, hwords⟩ := hbuilt.sumWords hs
  have hword (w : Nat) (hw : w ∈ s.words) :
      p.wordConditions w = List.replicate p.topology.wordSize .any := by
    refine List.eq_replicate_iff.mpr ⟨by simp [wordConditions, Topology.wordBits], fun c hc => ?_⟩
    obtain ⟨b, hb, rfl⟩ := List.mem_map.mp hc
    refine hany b (List.mem_flatMap.mpr ⟨w, hw, hb⟩) ?_
    obtain ⟨j, -, rfl⟩ := List.mem_map.mp hb
    exact beq_eq_false_iff_ne.mpr (hwords w hw)
  have hcount (ws : List Nat) (hws : ∀ w ∈ ws, w ∈ s.words) :
      (ws.map p.wordConditions).countP (!Sum.isGrounded ·) =
        if p.topology.wordSize = 0 then 0 else ws.length := by
    have hgrounded (w : Nat) (hw : w ∈ ws) : (!Sum.isGrounded (p.wordConditions w)) =
        (p.topology.wordSize != 0) := by
      rw [hword w (hws w hw), isGrounded_replicate_any, bne]
    rw [List.countP_map, List.countP_congr (q := fun _ => (p.topology.wordSize != 0))
      fun w hw => by rw [Function.comp_apply, hgrounded w hw]]
    split
    · next hzero => simp [hzero]
    · next hne => simp [hne]
  have hskipped : Sum.openWords? (s.positive.map p.wordConditions)
      (s.negative.map p.wordConditions) = none := by
    unfold Sum.openWords?
    rw [if_pos]
    rw [hcount _ fun w hw => List.mem_append_left _ hw,
      hcount _ fun w hw => List.mem_append_right _ hw]
    have hp := List.length_pos_iff.mpr hpositive
    have hn := List.length_pos_iff.mpr hnegative
    split
    · exact .inl ⟨rfl, rfl⟩
    · exact .inr (.inl ⟨hp, hn⟩)
  rw [Sum.propagate, hskipped]

end Propagator

end ShaDiff
