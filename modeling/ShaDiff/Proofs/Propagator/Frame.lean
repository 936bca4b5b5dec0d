import ShaDiff.Dialogue
import ShaDiff.Proofs.Propagator.Invariant

/-!
# What calls leave as they were

A search for something to propagate changes marks, caches, equations and counts, and
nothing the host has told (`Kept`). Assigning a literal gives its atom a value if the
atom is tracked, and a backtrack takes the values of the literals it removes, fixed ones
apart. The host's questions change no value: they refresh conditions at most (`Asked`).
-/

namespace ShaDiff

namespace Valuation

variable {v : Valuation} {t : Tracking}

theorem fixed_markDirty (v : Valuation) (b : Bit) : (v.markDirty b).fixed = v.fixed := by
  unfold markDirty
  split <;> rfl

theorem value?_assign {l : Literal} (hl : t.contains l.atom = true) (v : Valuation) (a : Atom) :
    (v.assign t l).2.value? a = if l.atom = a then some l.polarity else v.value? a := by
  unfold assign
  split
  · next hnone =>
    rw [Std.TreeMap.contains_iff_mem, Std.TreeMap.mem_iff_isSome_getElem?, hnone] at hl
    cases hl
  · rw [value?_markDirty]
    show (v.values.insert l.atom l.polarity)[a]? = _
    rw [Std.TreeMap.getElem?_insert]
    simp only [Std.LawfulEqCmp.compare_eq_iff_eq]
    rfl

theorem fixed_assign (v : Valuation) (t : Tracking) (l : Literal) :
    (v.assign t l).2.fixed = v.fixed := by
  unfold assign
  split
  · rfl
  · exact fixed_markDirty _ _

/-- Taking back the value of an atom spares fixed atoms and such that are not tracked. -/
theorem value?_unassign (v : Valuation) (t : Tracking) (a x : Atom) :
    (v.unassign t a).2.value? x =
      if a = x ∧ t.contains a = true ∧ v.fixed.contains a = false then none else v.value? x := by
  unfold unassign
  split
  · next hnone =>
    rw [if_neg]
    rintro ⟨-, ht, -⟩
    rw [Std.TreeMap.contains_iff_mem, Std.TreeMap.mem_iff_isSome_getElem?, hnone] at ht
    cases ht
  · next hsome =>
    have ht : t.contains a = true := by
      rw [Std.TreeMap.contains_iff_mem, Std.TreeMap.mem_iff_isSome_getElem?, hsome]
      rfl
    split
    · next hfixed => simp [hfixed]
    · next hfree =>
      rw [value?_markDirty]
      show (v.values.erase a)[x]? = _
      rw [Std.TreeMap.getElem?_erase]
      simp only [Std.LawfulEqCmp.compare_eq_iff_eq, ht, hfree, and_true]
      rfl

theorem fixed_unassign (v : Valuation) (t : Tracking) (a : Atom) :
    (v.unassign t a).2.fixed = v.fixed := by
  unfold unassign
  split
  · rfl
  · split
    · rfl
    · exact fixed_markDirty _ _

theorem foldl_unassign (v : Valuation) (t : Tracking) (ls : List Literal) :
    (ls.foldl (fun v l => (v.unassign t l.atom).2) v).fixed = v.fixed ∧
      ∀ x, (ls.foldl (fun v l => (v.unassign t l.atom).2) v).value? x =
        if x ∈ ls.map (·.atom) ∧ t.contains x = true ∧ v.fixed.contains x = false then none
        else v.value? x := by
  induction ls generalizing v with
  | nil => simp
  | cons l ls ih =>
    obtain ⟨hfixed, hvalue⟩ := ih (v.unassign t l.atom).2
    rw [fixed_unassign] at hfixed hvalue
    refine ⟨hfixed, fun x => ?_⟩
    rw [List.foldl_cons, hvalue, value?_unassign]
    by_cases hx : x = l.atom
    · subst hx
      cases t.contains l.atom <;> cases v.fixed.contains l.atom <;> simp
    · have hx' : l.atom ≠ x := fun h => hx h.symm
      simp [hx, hx']

end Valuation

def Call.isQuestion : Call → Bool
  | .assign .. | .openLevel | .backtrack _ => false
  | _ => true

namespace Propagator

variable {ρ : Type} {p q r : Propagator ρ}

-- ---------------------------------------------------------------------------
-- Searches
-- ---------------------------------------------------------------------------

/-- Whether nothing was changed but marks, what is remembered, equations and counts. -/
structure Kept (p q : Propagator ρ) : Prop where
  config : q.config = p.config
  topology : q.topology = p.topology
  characteristic : q.characteristic = p.characteristic
  valuation : q.valuation = p.valuation
  trail : q.trail = p.trail
  reasons : q.reasons = p.reasons
  status : q.status = p.status

theorem Kept.refl (p : Propagator ρ) : p.Kept p := ⟨rfl, rfl, rfl, rfl, rfl, rfl, rfl⟩

theorem Kept.trans (h : p.Kept q) (h' : q.Kept r) : p.Kept r where
  config := h'.config.trans h.config
  topology := h'.topology.trans h.topology
  characteristic := h'.characteristic.trans h.characteristic
  valuation := h'.valuation.trans h.valuation
  trail := h'.trail.trans h.trail
  reasons := h'.reasons.trans h.reasons
  status := h'.status.trans h.status

theorem kept_contradiction (p : Propagator ρ) (c : Clause) : p.Kept (p.contradiction c).2 := by
  unfold contradiction
  split <;> exact ⟨rfl, rfl, rfl, rfl, rfl, rfl, rfl⟩

theorem kept_keepColumnEquations (p : Propagator ρ) (s : Site) (bits : List Bit)
    (relations : List Relation) (antecedent : Clause) :
    p.Kept (p.keepColumnEquations s bits relations antecedent) := by
  unfold keepColumnEquations
  split <;> exact ⟨rfl, rfl, rfl, rfl, rfl, rfl, rfl⟩

theorem kept_keepSumEquations (p : Propagator ρ) (sum : Nat) (words : List Nat)
    (relations : List Sum.WordRelation) (antecedent : Clause) :
    p.Kept (p.keepSumEquations sum words relations antecedent) := by
  unfold keepSumEquations
  split <;> exact ⟨rfl, rfl, rfl, rfl, rfl, rfl, rfl⟩

theorem kept_propagateColumn (p : Propagator ρ) (s : Site) : p.Kept (p.propagateColumn s).2 := by
  unfold propagateColumn
  dsimp only
  split
  · exact ⟨rfl, rfl, rfl, rfl, rfl, rfl, rfl⟩
  · have hcached (columnCache : ColumnCache) (counters : Counters) :
        p.Kept { p with columnCache, counters } := ⟨rfl, rfl, rfl, rfl, rfl, rfl, rfl⟩
    split
    · exact (hcached _ _).trans (kept_contradiction _ _)
    · exact (hcached _ _).trans (kept_keepColumnEquations _ _ _ _ _)

theorem kept_propagateSum (p : Propagator ρ) (sum : Nat) : p.Kept (p.propagateSum sum).2 := by
  unfold propagateSum
  split
  · exact .refl p
  · have hcached (sumCache : SumCache) : p.Kept { p with sumCache } :=
      ⟨rfl, rfl, rfl, rfl, rfl, rfl, rfl⟩
    dsimp only
    split
    · exact hcached _
    · exact (hcached _).trans (kept_contradiction _ _)
    · have hequations (sumCache : SumCache) words relations antecedent :=
        (hcached sumCache).trans (kept_keepSumEquations _ sum words relations antecedent)
      split
      · exact hequations _ _ _ _
      · exact (hequations _ _ _ _).trans ⟨rfl, rfl, rfl, rfl, rfl, rfl, rfl⟩

theorem kept_propagateColumns (turns : Nat) (p : Propagator ρ) :
    p.Kept (propagateColumns turns p).2 := by
  induction turns generalizing p with
  | zero => exact .refl p
  | succ turns ih =>
    unfold propagateColumns
    split
    · exact ⟨rfl, rfl, rfl, rfl, rfl, rfl, rfl⟩
    · next s marks _ =>
      have htaken : p.Kept { p with marks } := ⟨rfl, rfl, rfl, rfl, rfl, rfl, rfl⟩
      have hcolumn := htaken.trans (kept_propagateColumn _ s)
      split
      · next q hq =>
        rw [hq] at hcolumn
        exact hcolumn.trans (ih q)
      · exact hcolumn

theorem kept_propagateSums (turns : Nat) (p : Propagator ρ) : p.Kept (propagateSums turns p).2 := by
  induction turns generalizing p with
  | zero => exact .refl p
  | succ turns ih =>
    unfold propagateSums
    split
    · exact .refl p
    · next sum marks _ =>
      have htaken : p.Kept { p with marks } := ⟨rfl, rfl, rfl, rfl, rfl, rfl, rfl⟩
      have hsum := htaken.trans (kept_propagateSum _ sum)
      split
      · next q hq =>
        rw [hq] at hsum
        exact hsum.trans (ih q)
      · exact hsum

theorem kept_findPropagation (p : Propagator ρ) : p.Kept p.findPropagation.2 := by
  have hcolumns := kept_propagateColumns (p.marks.marked.size + 1) p
  unfold findPropagation
  split
  · next q hq =>
    rw [hq] at hcolumns
    split
    · exact hcolumns.trans (kept_propagateSums _ q)
    · exact hcolumns.trans ⟨rfl, rfl, rfl, rfl, rfl, rfl, rfl⟩
  · exact hcolumns

/-- What every step of a search keeps the search keeps, and so what is true of all that the
steps find is true of what the search finds. -/
theorem findPropagation_invariant {I : Propagator ρ → Prop} {P : Finding → Prop} (hp : I p)
    (hmarks : ∀ q marks, I q → I { q with marks }) (hnothing : P .nothing)
    (hcolumn : ∀ q s, I q → P (q.propagateColumn s).1 ∧ I (q.propagateColumn s).2)
    (hsum : ∀ q sum, I q → P (q.propagateSum sum).1 ∧ I (q.propagateSum sum).2) :
    P p.findPropagation.1 ∧ I p.findPropagation.2 := by
  have hcolumns (turns : Nat) :
      ∀ q, I q → P (propagateColumns turns q).1 ∧ I (propagateColumns turns q).2 := by
    induction turns with
    | zero => exact fun q hq => ⟨hnothing, hq⟩
    | succ turns ih =>
      intro q hq
      unfold propagateColumns
      split
      · exact ⟨hnothing, hmarks q _ hq⟩
      · next s marks _ =>
        have hfound := hcolumn _ s (hmarks q marks hq)
        split
        · next q' hq' =>
          rw [hq'] at hfound
          exact ih q' hfound.2
        · exact hfound
  have hsums (turns : Nat) :
      ∀ q, I q → P (propagateSums turns q).1 ∧ I (propagateSums turns q).2 := by
    induction turns with
    | zero => exact fun q hq => ⟨hnothing, hq⟩
    | succ turns ih =>
      intro q hq
      unfold propagateSums
      split
      · exact ⟨hnothing, hq⟩
      · next sum marks _ =>
        have hfound := hsum _ sum (hmarks q marks hq)
        split
        · next q' hq' =>
          rw [hq'] at hfound
          exact ih q' hfound.2
        · exact hfound
  have hfound := hcolumns (p.marks.marked.size + 1) p hp
  unfold findPropagation
  split
  · next q hq =>
    rw [hq] at hfound
    split
    · exact hsums _ q hfound.2
    · exact ⟨hnothing, hmarks q _ hfound.2⟩
  · exact hfound

/-- What is true of all that columns and sums lead to, as long as the host has told nothing
more, is true of what a search finds. -/
theorem findPropagation_induction {P : Finding → Prop} (hnothing : P .nothing)
    (hcolumn : ∀ q s, p.Kept q → P (q.propagateColumn s).1)
    (hsum : ∀ q sum, p.Kept q → P (q.propagateSum sum).1) : P p.findPropagation.1 :=
  (findPropagation_invariant (I := p.Kept) (.refl p)
    (fun _ _ hq => hq.trans ⟨rfl, rfl, rfl, rfl, rfl, rfl, rfl⟩) hnothing
    (fun q s hq => ⟨hcolumn q s hq, hq.trans (kept_propagateColumn q s)⟩)
    fun q sum hq => ⟨hsum q sum hq, hq.trans (kept_propagateSum q sum)⟩).1

-- ---------------------------------------------------------------------------
-- Notices
-- ---------------------------------------------------------------------------

theorem assign_of_untracked {l : Literal} (h : p.topology.tracked.contains l.atom = false)
    (isFixed : Bool) : p.assign l isFixed = p := by
  simp [assign, h]

section

variable {l : Literal} (hb : p.isBuilt = true) (ht : p.topology.tracked.contains l.atom = true)

include hb ht

theorem assign_eq (isFixed : Bool) : p.assign l isFixed = { p with
    valuation := ((if isFixed then p.valuation.setFixed l.atom true else p.valuation).assign
      p.topology.tracked l).2
    trail := if isFixed then p.trail else p.trail.store l
    counters.assignments := p.counters.assignments + 1 } := by
  simp [assign, hb, ht]

theorem value?_assign (isFixed : Bool) (a : Atom) :
    (p.assign l isFixed).value? a = if l.atom = a then some l.polarity else p.value? a := by
  rw [assign_eq hb ht, value?]
  refine (Valuation.value?_assign ht _ a).trans ?_
  cases isFixed <;> rfl

theorem fixed_assign (isFixed : Bool) : (p.assign l isFixed).valuation.fixed =
    if isFixed then p.valuation.fixed.insert l.atom else p.valuation.fixed := by
  rw [assign_eq hb ht]
  refine (Valuation.fixed_assign _ _ l).trans ?_
  cases isFixed <;> rfl

theorem trail_assign (isFixed : Bool) : (p.assign l isFixed).trail =
    if isFixed then p.trail else p.trail.store l := by
  rw [assign_eq hb ht]

end

theorem topology_assign (p : Propagator ρ) (l : Literal) (isFixed : Bool) :
    (p.assign l isFixed).topology = p.topology := by
  unfold assign
  split <;> rfl

theorem isBuilt_assign (p : Propagator ρ) (l : Literal) (isFixed : Bool) :
    (p.assign l isFixed).isBuilt = p.isBuilt :=
  congrArg (·.order.isSome) (topology_assign p l isFixed)

theorem mirrors_assign (ht : p.topology.Tracks)
    (h : p.topology.Mirrors p.valuation p.characteristic) (l : Literal) (isFixed : Bool) :
    p.topology.Mirrors (p.assign l isFixed).valuation (p.assign l isFixed).characteristic := by
  unfold assign
  split
  · cases isFixed
    · exact h.assign ht l
    · exact (h.setFixed l.atom true).assign ht l
  · exact h

theorem openLevel_frame (p : Propagator ρ) :
    p.openLevel = { p with trail := p.trail.push, status := p.openLevel.status } := by
  unfold openLevel
  dsimp only
  split <;> rfl

/-- Removed literals lose their value unless they are fixed. -/
structure Returned (p : Propagator ρ) (level : Nat) (q : Propagator ρ) : Prop where
  config : q.config = p.config
  topology : q.topology = p.topology
  trail : q.trail = (p.trail.popTo level).2
  fixed : q.valuation.fixed = p.valuation.fixed
  dirty : q.valuation.dirty = []
  value : ∀ a, q.value? a = if a ∈ (p.trail.popTo level).1.map (·.atom) ∧
    p.topology.tracked.contains a = true ∧ p.valuation.fixed.contains a = false then none
    else p.value? a
  mirrors : p.topology.Tracks → p.topology.Mirrors p.valuation p.characteristic →
    p.topology.Mirrors q.valuation q.characteristic

theorem returned_backtrack (p : Propagator ρ) (level : Nat) :
    p.Returned level (p.backtrack level) := by
  have hvalues := p.valuation.foldl_unassign p.topology.tracked (p.trail.popTo level).1
  have hmirrors := mirrors_refresh (p := { p with
    trail := (p.trail.popTo level).2
    valuation := (p.trail.popTo level).1.foldl
      (fun v l => (v.unassign p.topology.tracked l.atom).2) p.valuation })
  unfold backtrack
  dsimp only
  rw [refresh_frame] at hmirrors ⊢
  exact ⟨rfl, rfl, rfl, hvalues.1, rfl, hvalues.2, fun ht h => hmirrors (h.foldl_unassign ht _)⟩

theorem reasons_backtrack (p : Propagator ρ) (level : Nat) :
    (p.backtrack level).reasons = p.reasons.filter fun l c =>
      ((p.backtrack level).literal? l).isSome &&
        c.all fun k => ((p.backtrack level).literal? k).isSome := by
  unfold backtrack
  dsimp only
  rw [refresh_frame]
  rfl

-- ---------------------------------------------------------------------------
-- Questions
-- ---------------------------------------------------------------------------

structure Asked (p q : Propagator ρ) : Prop where
  config : q.config = p.config
  topology : q.topology = p.topology
  trail : q.trail = p.trail
  values : q.valuation.values = p.valuation.values
  fixed : q.valuation.fixed = p.valuation.fixed
  mirrors : p.topology.Mirrors p.valuation p.characteristic →
    p.topology.Mirrors q.valuation q.characteristic

theorem Asked.refl (p : Propagator ρ) : p.Asked p := ⟨rfl, rfl, rfl, rfl, rfl, id⟩

theorem Asked.trans (h : p.Asked q) (h' : q.Asked r) : p.Asked r where
  config := h'.config.trans h.config
  topology := h'.topology.trans h.topology
  trail := h'.trail.trans h.trail
  values := h'.values.trans h.values
  fixed := h'.fixed.trans h.fixed
  mirrors hm := h.topology ▸ h'.mirrors (h.topology ▸ h.mirrors hm)

theorem Asked.value? (h : p.Asked q) (a : Atom) : q.value? a = p.value? a := by
  rw [Propagator.value?, Propagator.value?, Valuation.value?, Valuation.value?, h.values]

theorem Asked.literal? (h : p.Asked q) (l : Literal) : q.literal? l = p.literal? l :=
  congrArg (Option.map (· == l.polarity)) (h.value? l.atom)

theorem Asked.isBuilt (h : p.Asked q) : q.isBuilt = p.isBuilt :=
  congrArg (·.order.isSome) h.topology

theorem Kept.asked (h : p.Kept q) : p.Asked q where
  config := h.config
  topology := h.topology
  trail := h.trail
  values := congrArg Valuation.values h.valuation
  fixed := congrArg Valuation.fixed h.valuation
  mirrors hm := h.valuation ▸ h.characteristic ▸ hm

theorem asked_refresh (p : Propagator ρ) : p.Asked p.refresh := by
  have hmirrors := mirrors_refresh (p := p)
  rw [refresh_frame] at hmirrors ⊢
  exact ⟨rfl, rfl, rfl, rfl, rfl, hmirrors⟩

theorem asked_giveBatch (p : Propagator ρ) (batch : List Literal) :
    p.Asked (p.giveBatch batch).2 := by
  unfold giveBatch
  split <;> exact ⟨rfl, rfl, rfl, rfl, rfl, id⟩

theorem asked_findBatch (p : Propagator ρ) : p.Asked p.findBatch.2 := by
  have hfound := p.asked_refresh.trans (kept_findPropagation p.refresh).asked
  unfold findBatch
  split
  · next q hq =>
    rw [hq] at hfound
    exact hfound
  · next c q hq =>
    rw [hq] at hfound
    exact hfound.trans ⟨rfl, rfl, rfl, rfl, rfl, id⟩
  · next ls q hq =>
    rw [hq] at hfound
    have hremembered (reasons : Std.TreeMap Literal Clause) : p.Asked { q with reasons } :=
      hfound.trans ⟨rfl, rfl, rfl, rfl, rfl, id⟩
    exact (hremembered _).trans (asked_giveBatch _ _)

theorem asked_propagate (p : Propagator ρ) : p.Asked p.propagate.2 := by
  unfold propagate
  split
  · split
    · next batch _ =>
      have hgiven := asked_giveBatch p batch
      split
      · next q hq =>
        rw [hq] at hgiven
        exact hgiven.trans (asked_findBatch q)
      · exact hgiven
    · exact asked_findBatch p
    · exact .refl p
  · exact .refl p

theorem asked_decide [Coin ρ] (p : Propagator ρ) : p.Asked p.decide.2 := by
  have hfound : p.Asked p.refresh.findDecision.2 := by
    rw [findDecision_frame]
    exact p.asked_refresh.trans ⟨rfl, rfl, rfl, rfl, rfl, id⟩
  unfold decide
  split
  · split
    · next q hq =>
      rw [hq] at hfound
      exact hfound
    · next l q hq =>
      rw [hq] at hfound
      exact hfound.trans ⟨rfl, rfl, rfl, rfl, rfl, id⟩
  · exact .refl p

theorem asked_reason {l : Literal} {k : Option Literal} (h : p.reason l = .ok (k, q)) :
    p.Asked q := by
  have hgiven (p : Propagator ρ) (s : ReasonStream) : p.Asked (p.giveReason s).2 := by
    unfold giveReason
    split <;> exact ⟨rfl, rfl, rfl, rfl, rfl, id⟩
  unfold reason at h
  split at h
  · next s _ =>
    have hq := hgiven p s
    rw [Except.ok.inj h] at hq
    exact hq
  · split at h
    · cases h
    · next c _ =>
      have hcounted (counters : Counters) : p.Asked { p with counters } :=
        ⟨rfl, rfl, rfl, rfl, rfl, id⟩
      have hq := (hcounted _).trans
        (hgiven { p with counters.reasons := p.counters.reasons + 1 } ⟨l, c, 0⟩)
      rw [Except.ok.inj h] at hq
      exact hq

theorem asked_hasClause (p : Propagator ρ) : p.Asked p.hasClause.2 := by
  have hasked (queries : Nat) : p.Asked { p with queries } := ⟨rfl, rfl, rfl, rfl, rfl, id⟩
  have hchecked (q : Propagator ρ) : q.Asked q.checkTwoBit.2 := by
    rw [checkTwoBit_frame]
    exact ⟨rfl, rfl, rfl, rfl, rfl, id⟩
  have hfound := ((hasked (p.queries + 1)).trans (asked_refresh _)).trans (hchecked _)
  unfold hasClause
  split
  · exact .refl p
  · split
    · dsimp only
      split
      · exact hasked _
      · split
        · next c q hq =>
          rw [hq] at hfound
          exact hfound.trans ⟨rfl, rfl, rfl, rfl, rfl, id⟩
        · next q hq =>
          rw [hq] at hfound
          exact hfound
    · exact .refl p
  · exact .refl p

theorem asked_clause (p : Propagator ρ) : p.Asked p.clause.2 := by
  unfold clause
  split
  · split <;> exact ⟨rfl, rfl, rfl, rfl, rfl, id⟩
  · exact .refl p

theorem asked_answer [Coin ρ] {c : Call} {a : Answer} (hc : c.isQuestion = true)
    (h : p.answer c = .ok (a, q)) : p.Asked q := by
  cases c with
  | assign | openLevel | backtrack => cases hc
  | model =>
    obtain ⟨-, rfl⟩ := Prod.mk.inj (Except.ok.inj h)
    exact .refl p
  | decide =>
    obtain ⟨-, rfl⟩ := Prod.mk.inj (Except.ok.inj h)
    exact asked_decide p
  | propagate =>
    obtain ⟨-, rfl⟩ := Prod.mk.inj (Except.ok.inj h)
    exact asked_propagate p
  | reason l =>
    obtain ⟨_, hr, -⟩ := reason_of_answer h
    exact asked_reason hr
  | hasClause =>
    obtain ⟨-, rfl⟩ := Prod.mk.inj (Except.ok.inj h)
    exact asked_hasClause p
  | clause =>
    obtain ⟨-, rfl⟩ := Prod.mk.inj (Except.ok.inj h)
    exact asked_clause p

end Propagator

end ShaDiff
