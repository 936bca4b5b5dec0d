import ShaDiff.Proofs.Encoding

/-!
# One more value

A value for an atom that had none leaves of a bit what the region of the literal leaves. What the
values of a bit leave is never `?` or `x` if some slot without value could say no less
(`not_subset_of_open`), and never a contradiction as long as the difference has no value
(`refresh_ne_never`).
-/

namespace ShaDiff

namespace Condition

variable {c d : Condition} {p : Pair}

theorem ne_never_of_allows (h : c.allows p = true) : c ≠ .never := by
  rintro rfl
  rw [allows_never] at h
  cases h

theorem refines_inter (h : c.subset d = false) : (c.inter d).refines c = true := by
  have hsub : (c.inter d).subset c = true := subset_iff.mpr fun p hp => by
    rw [allows_inter, Bool.and_eq_true] at hp
    exact hp.1
  have hne : c.inter d ≠ c := by
    intro heq
    have hall : c.subset d = true := subset_iff.mpr fun p hp => by
      rw [← heq, allows_inter, Bool.and_eq_true] at hp
      exact hp.2
    exact nomatch h.symm.trans hall
  rw [refines, hsub, Bool.true_and, bne_iff_ne]
  exact hne

theorem exists_pair_of_ne_never (h : c ≠ .never) : ∃ p, c.allows p = true := by
  refine Classical.byContradiction fun hnot => h (ext fun p => ?_)
  rw [allows_never]
  exact Bool.eq_false_iff.mpr fun hp => hnot ⟨p, hp⟩

theorem exists_pair_of_difference? (hc : c ≠ .never) (h : c.difference? = none) (differs : Bool) :
    ∃ p, c.allows p = true ∧ p.differs = differs := by
  have key : ∀ m : BitVec 4, (⟨m⟩ : Condition) ≠ .never → (⟨m⟩ : Condition).difference? = none →
      ∀ differs, ∃ p ∈ Pair.all, (⟨m⟩ : Condition).allows p = true ∧ p.differs = differs := by
    decide
  obtain ⟨p, -, hp⟩ := key c.mask hc h differs
  exact ⟨p, hp⟩

end Condition

namespace Encoding

variable {e : Encoding} {values values' : List (Option Bool)} {r : Region} {slot : Nat}
  {c : Condition}

theorem refresh_of_value (hr : r ∈ e.regions) (hnone : values[r.slot]?.join = none)
    (hvalue : ∀ i, values'[i]?.join = if i = r.slot then some r.polarity else values[i]?.join) :
    e.refresh values' = (e.refresh values).inter r.condition := by
  refine Condition.ext fun p => ?_
  rw [Condition.allows_inter, Bool.eq_iff_iff, Bool.and_eq_true, allows_refresh, allows_refresh]
  have hholds (r' : Region) : r'.holds values' = true ↔
      r'.slot = r.slot ∧ r'.polarity = r.polarity ∨ r'.holds values = true := by
    rw [Region.holds, Region.holds, hvalue, beq_iff_eq, beq_iff_eq]
    split
    · next heq => simp [heq, hnone, eq_comm]
    · next hne => simp [hne]
  constructor
  · intro hall
    exact ⟨fun r' hr' hold => hall r' hr' ((hholds r').mpr (.inr hold)),
      hall r hr ((hholds r).mpr (.inl ⟨rfl, rfl⟩))⟩
  · rintro ⟨hold, hnew⟩ r' hr' h
    rcases (hholds r').mp h with ⟨hslot, hpolarity⟩ | h
    · rw [allows_region hr', hslot, hpolarity, ← allows_region hr]
      exact hnew
    · exact hold r' hr' h

/-- What the values leave is `?` or `x` only if no slot without value could force as much. -/
theorem not_subset_of_open (hc : c = .any ∨ c = .x) (hrefresh : e.refresh values = c)
    (hr : r ∈ e.regions) (hnone : values[r.slot]?.join = none) :
    c.subset r.condition = false := by
  -- A pair that the region alone leaves out is one that the values allow.
  have key : ∀ c ∈ [Condition.any, .x], ∀ r ∈ e.regions, c.subset r.condition = true →
      ∃ p ∈ Pair.all, r.condition.allows p = false ∧ ∀ r' ∈ e.regions, r'.slot ≠ r.slot →
        c.subset r'.condition = true → r'.condition.allows p = true := by
    cases e <;> decide
  cases hsub : c.subset r.condition with
  | false => rfl
  | true =>
    obtain ⟨p, -, hout, hothers⟩ := key c (by simpa using hc) r hr hsub
    have hin : (e.refresh values).allows p = true := allows_refresh.mpr fun r' hr' hholds => by
      have hne : r'.slot ≠ r.slot := by
        intro heq
        rw [Region.holds, heq, hnone] at hholds
        cases hholds
      refine hothers r' hr' hne (hrefresh ▸ Condition.subset_iff.mpr fun q hq => ?_)
      exact allows_refresh.mp hq r' hr' hholds
    rw [hrefresh] at hin
    rw [Condition.subset_iff.mp hsub p hin] at hout
    cases hout

theorem differenceSlot_lt_slots (h : e.differenceSlot? = some slot) : slot < e.slots := by
  have key : ∀ slot ∈ e.differenceSlot?, slot < e.slots := by cases e <;> decide
  exact key slot h

theorem exists_pair_of_slots (h : e.differenceSlot? = some slot) (f : Nat → Bool) :
    ∃ p : Pair, ∀ i < e.slots, i ≠ slot → (e.meaning i).allows p = f i := by
  cases e with
  | oneBit =>
    obtain rfl := Option.some.inj h
    refine ⟨⟨f 0, f 1⟩, fun i hi hne => ?_⟩
    have key : ∀ v w, (oneBit.meaning 0).allows ⟨v, w⟩ = v ∧
        (oneBit.meaning 1).allows ⟨v, w⟩ = w := by decide
    match i, hi, hne with
    | 0, _, _ => exact (key _ _).1
    | 1, _, _ => exact (key _ _).2
    | 2, _, hne => exact absurd rfl hne
  | fourBit => cases h
  | li2024 =>
    obtain rfl := Option.some.inj h
    refine ⟨⟨f 1, false⟩, fun i hi hne => ?_⟩
    have key : ∀ v, (li2024.meaning 1).allows ⟨v, false⟩ = v := by decide
    match i, hi, hne with
    | 0, _, hne => exact absurd rfl hne
    | 1, _, _ => exact key _

theorem refresh_ne_never (h : e.differenceSlot? = some slot) (hnone : values[slot]?.join = none) :
    e.refresh values ≠ .never := by
  obtain ⟨p, hp⟩ := exists_pair_of_slots h fun i => values[i]?.join.getD false
  refine Condition.ne_never_of_allows (p := p) (allows_refresh.mpr fun r hr hholds => ?_)
  have hvalue : values[r.slot]?.join = some r.polarity := beq_iff_eq.mp hholds
  have hne : r.slot ≠ slot := by
    rintro rfl
    rw [hnone] at hvalue
    cases hvalue
  rw [allows_region hr, hp r.slot (e.slot_lt_slots r hr) hne, hvalue]
  exact beq_self_eq_true _

end Encoding

end ShaDiff
