import ShaDiff.Proofs.Column
import ShaDiff.Proofs.Propagator.Memo
import ShaDiff.Proofs.Propagator.Mirror
import ShaDiff.Proofs.Refinement
import ShaDiff.Proofs.Sum.Words
import ShaDiff.Propagator.Finding

/-!
# Antecedents

A pair of instances that makes an antecedent false agrees with all that is true on the
bits of a column or sum, so the conditions of these bits allow its pairs
(`allows_of_antecedent`). So a literal that a condition forces is true there if the
condition allows the pair (`holds_reason`), and an equation is valid if its sum of
differences is right there (`validates_equation`).
-/

namespace ShaDiff

namespace Topology

variable {t : Topology} {order : Nat} {σ : Bit → Pair} {v : Atom → Bool}

-- ---------------------------------------------------------------------------
-- Columns and sums in a pair of instances
-- ---------------------------------------------------------------------------

theorem Built.image_eq (h : t.Built order) (hσ : t.Instances σ) {o : Operation}
    (ho : o ∈ t.operations) {j : Nat} (hj : j < t.wordSize) :
    (t.outputBits o j).map σ =
      Column.image o.gate (t.outputBits o j).length ((t.inputBits o j).map σ) := by
  have hfirst := hσ.first.operation o ho j hj
  have hsecond := hσ.second.operation o ho j hj
  have hlength : (t.outputBits o j).length = o.gate.width := by
    rw [outputBits, List.length_map, h.outputs ho]
  rw [Column.image, hlength, List.map_map, List.map_map]
  show _ = List.zipWith Pair.mk (o.gate.evaluate _) (o.gate.evaluate _)
  have heq (f : Pair → Bool) : (t.inputBits o j).map (f ∘ σ) =
      (o.inputs.map (·.bit t.wordSize j)).map fun b => f (σ b) := rfl
  rw [heq Pair.first, heq Pair.second, ← hfirst, ← hsecond, List.zipWith_map, List.zipWith_self]
  rfl

end Topology

namespace Propagator

variable {ρ : Type} {p : Propagator ρ} {σ : Bit → Pair} {v : Atom → Bool} {bits : List Bit}

-- ---------------------------------------------------------------------------
-- Antecedents
-- ---------------------------------------------------------------------------

theorem mem_trueLiterals {l : Literal} : l ∈ p.trueLiterals bits ↔
    ∃ b ∈ bits, l.atom ∈ p.topology.slotAtoms b ∧ p.value? l.atom = some l.polarity := by
  rw [trueLiterals, Clause.mem_ofList, List.mem_flatMap]
  refine exists_congr fun b => and_congr_right fun _ => ?_
  rw [List.mem_filterMap]
  constructor
  · rintro ⟨a, ha, h⟩
    obtain ⟨value, hvalue, rfl⟩ := Option.map_eq_some_iff.mp h
    exact ⟨ha, hvalue⟩
  · rintro ⟨ha, hvalue⟩
    exact ⟨l.atom, ha, by rw [hvalue]; rfl⟩

/-- Where the antecedent of some bits is false, their conditions allow the pairs. -/
theorem allows_of_antecedent (hr : p.topology.Reflects p.valuation p.characteristic)
    (hσ : p.topology.Instances σ) (hv : p.topology.Reads σ v)
    (h : ¬ (p.antecedent bits).Holds v) : ∀ b ∈ bits, (p.condition b).allows (σ b) = true := by
  intro b hb
  cases hz : b.isZero with
  | true =>
    rw [hσ.zero hz, condition, Characteristic.get_zero hz]
    decide
  | false =>
    rw [condition, hr b hz]
    refine Encoding.refresh_allows (hv b) fun a ha value hvalue => ?_
    have hmem : (⟨a, value⟩ : Literal) ∈ p.trueLiterals bits :=
      mem_trueLiterals.mpr ⟨b, hb, List.mem_filterMap.mpr ⟨_, ha, rfl⟩, hvalue⟩
    have hfalse := Clause.not_holds.mp h _ (List.mem_map_of_mem hmem)
    exact Classical.byContradiction fun hne => hfalse (Literal.holds_negate.mpr hne)

theorem mem_forced {b : Bit} {c : Condition} {l : Literal} (h : l ∈ p.forced b c) :
    l ∈ p.encoding.forced (p.topology.slots b) c := by
  unfold forced at h
  split at h
  · cases h
  · exact (List.mem_filter.mp h).1

/-- A forced literal has a reason that holds, if its condition allows the pair wherever
the antecedent is false. -/
theorem holds_reason (hv : p.topology.Reads σ v) {b : Bit} {c : Condition} {l : Literal}
    {antecedent : Clause} (hl : l ∈ p.forced b c)
    (h : ¬ antecedent.Holds v → c.allows (σ b) = true) : Clause.Holds (l :: antecedent) v := by
  rw [Clause.holds_cons]
  by_cases ha : antecedent.Holds v
  · exact .inr ha
  · exact .inl (Encoding.forced_holds (hv b) (h ha) (mem_forced hl))

/-- An equation is valid if its sum of differences is right wherever its antecedent is
false. -/
theorem validates_equation {slot : Nat} {b c : Bit} {value : Bool} {antecedent : Clause}
    {e : Equation} (hslot : p.equationSlot? = some slot)
    (he : p.equation? slot b c value antecedent = some e)
    (h : ∀ σ v, p.topology.Instances σ → p.topology.Reads σ v → ¬ antecedent.Holds v →
      ((σ b).differs ^^ (σ c).differs) = value) : p.topology.Validates e := by
  intro σ v hσ hv ha
  unfold equationSlot? at hslot
  split at hslot
  · cases hslot
  · have hslot : p.topology.encoding.differenceSlot? = some slot := hslot
    obtain ⟨x, hx, he⟩ := Option.bind_eq_some_iff.mp he
    obtain ⟨y, hy, he⟩ := Option.bind_eq_some_iff.mp he
    obtain ⟨-, -, he⟩ := Option.bind_eq_some_iff.mp he
    obtain rfl := Option.some.inj he
    rw [Equation.antecedent_between, ← Clause.not_holds] at ha
    rw [Equation.holds_between, hv b slot x hx, hv c slot y hy]
    rw [Encoding.allows_meaning_difference hslot, Encoding.allows_meaning_difference hslot]
    exact h σ v hσ hv ha

theorem allows_of_mem_zip {bits : List Bit} {cs : List Condition}
    (h : Condition.Allow cs (bits.map σ)) {b : Bit} {c : Condition} (hmem : (b, c) ∈ bits.zip cs) :
    c.allows (σ b) = true := by
  induction bits generalizing cs with
  | nil => cases hmem
  | cons d bits ih =>
    obtain _ | ⟨hd, h⟩ := h
    rcases List.mem_cons.mp hmem with heq | hmem
    · obtain ⟨rfl, rfl⟩ := Prod.mk.inj heq
      exact hd
    · exact ih h hmem

theorem exists_of_mem_columnLiterals {o : Operation} {inputBits outputBits : List Bit}
    {outcome : Column.Outcome} {l : Literal}
    (hl : l ∈ p.columnLiterals o inputBits outputBits outcome) :
    ∃ b c, l ∈ p.forced b c ∧
      ((b, c) ∈ inputBits.zip outcome.inputs ∨ (b, c) ∈ outputBits.zip outcome.outputs) := by
  simp only [columnLiterals, List.mem_eraseDups, List.mem_flatMap, List.mem_append] at hl
  obtain ⟨⟨b, c⟩, hmem, hl⟩ := hl
  refine ⟨b, c, hl, hmem.imp_right fun hmem => ?_⟩
  split at hmem
  · exact List.mem_of_mem_drop hmem
  · exact hmem

end Propagator

end ShaDiff
