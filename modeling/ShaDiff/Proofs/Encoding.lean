import ShaDiff.Encoding
import ShaDiff.Proofs.Satisfaction

/-!
# What the atoms of a bit mean

The atom in a slot of a bit means that the pair of the bit lies in the region which
the encoding gives to the slot. Two regions of a slot are complements of each
other, so a literal with the polarity of a region means the same as the region.
From that follows all that soundness needs of an encoding: what is read from true
literals allows the pair (`refresh_allows`), and what a condition forces is true of
any pair it allows (`forced_holds`).
-/

namespace ShaDiff.Encoding

variable {e : Encoding} {atoms : Slots} {p : Pair} {v : Atom → Bool}

/-- The pairs of a bit for which the atom in a slot is true. -/
def meaning (e : Encoding) (slot : Nat) : Condition :=
  ((e.regions.find? fun r => r.slot == slot && r.polarity).map (·.condition)).getD .never

theorem allows_region {r : Region} (hr : r ∈ e.regions) (p : Pair) :
    r.condition.allows p = ((e.meaning r.slot).allows p == r.polarity) := by
  have key : ∀ r ∈ e.regions, ∀ p ∈ Pair.all,
      r.condition.allows p = ((e.meaning r.slot).allows p == r.polarity) := by
    cases e <;> decide
  exact key r hr p p.mem_all

theorem exists_region {r : Region} (hr : r ∈ e.regions) (polarity : Bool) :
    ∃ r' ∈ e.regions, r'.slot = r.slot ∧ r'.polarity = polarity := by
  have key : ∀ r ∈ e.regions, ∀ polarity,
      ∃ r' ∈ e.regions, r'.slot = r.slot ∧ r'.polarity = polarity := by
    cases e <;> decide
  exact key r hr polarity

theorem exists_region_of_slot {slot : Nat} (h : slot < e.slots) (polarity : Bool) :
    ∃ r ∈ e.regions, r.slot = slot ∧ r.polarity = polarity := by
  have key : ∀ slot < e.slots, ∀ polarity,
      ∃ r ∈ e.regions, r.slot = slot ∧ r.polarity = polarity := by
    cases e <;> decide
  exact key slot h polarity

/-- The atom in the difference slot says whether the two values differ. -/
theorem allows_meaning_difference {slot : Nat} (h : e.differenceSlot? = some slot) (p : Pair) :
    (e.meaning slot).allows p = p.differs := by
  have key : ∀ slot ∈ e.differenceSlot?, ∀ p ∈ Pair.all, (e.meaning slot).allows p = p.differs := by
    cases e <;> decide
  exact key slot h p p.mem_all

/-- Whether a valuation says of the atoms of a bit what they mean for its pair. -/
def Reads (e : Encoding) (atoms : Slots) (p : Pair) (v : Atom → Bool) : Prop :=
  ∀ slot a, atoms[slot]?.join = some a → v a = (e.meaning slot).allows p

theorem Reads.holds (h : e.Reads atoms p v) {r : Region} (hr : r ∈ e.regions) {l : Literal}
    (hl : r.literal? atoms = some l) : l.Holds v ↔ r.condition.allows p = true := by
  obtain ⟨a, ha, rfl⟩ := Option.map_eq_some_iff.mp hl
  rw [Literal.Holds, h _ _ ha, allows_region hr, beq_iff_eq]

/-- A literal forced by a condition is true of every pair the condition allows. -/
theorem forced_holds (h : e.Reads atoms p v) {c : Condition} (hp : c.allows p = true) {l : Literal}
    (hl : l ∈ e.forced atoms c) : l.Holds v := by
  unfold forced at hl
  split at hl
  · cases hl
  · obtain ⟨r, hr, hl⟩ := List.mem_filterMap.mp hl
    obtain ⟨hr, hsub⟩ := List.mem_filter.mp hr
    exact (h.holds hr hl).mpr (Condition.subset_iff.mp hsub p hp)

theorem allows_refresh {values : List (Option Bool)} : (e.refresh values).allows p = true ↔
    ∀ r ∈ e.regions, r.holds values = true → r.condition.allows p = true := by
  unfold refresh
  induction e.regions with
  | nil => simp [Condition.allows_any]
  | cons r rs ih =>
    rw [List.foldr_cons, List.forall_mem_cons, ← ih]
    split
    · rename_i h
      simp [Condition.allows_inter, h]
    · rename_i h
      simp [h]

/-- What is read from true literals allows the pair. -/
theorem refresh_allows (h : e.Reads atoms p v) {value? : Atom → Option Bool}
    (hv : ∀ a, some a ∈ atoms → ∀ value, value? a = some value → v a = value) :
    (e.refresh (atoms.map fun a? => a?.bind value?)).allows p = true := by
  refine allows_refresh.mpr fun r hr hholds => ?_
  simp only [Region.holds, List.getElem?_map, beq_iff_eq] at hholds
  obtain ⟨a?, ha, hvalue⟩ : ∃ a?, atoms[r.slot]? = some a? ∧ a?.bind value? = some r.polarity := by
    cases ha : atoms[r.slot]? with
    | none => simp [ha] at hholds
    | some a? => exact ⟨a?, rfl, by simpa [ha] using hholds⟩
  obtain ⟨a, rfl, hvalue⟩ := Option.bind_eq_some_iff.mp hvalue
  rw [allows_region hr, ← h r.slot a (by rw [ha]; rfl), hv a (List.mem_of_getElem? ha) _ hvalue]
  exact beq_self_eq_true _

theorem refresh_of_none {values : List (Option Bool)} (h : ∀ x ∈ values, x = none) :
    e.refresh values = .any := by
  refine Condition.ext fun p => ?_
  rw [Condition.allows_any, allows_refresh]
  intro r _ hholds
  have : values[r.slot]?.join = none := by
    cases hx : values[r.slot]? with
    | none => rfl
    | some x => exact h x (List.mem_of_getElem? hx)
  simp [Region.holds, this] at hholds

end ShaDiff.Encoding
