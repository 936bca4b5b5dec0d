import ShaDiff.Proofs.Propagator.Batch
import ShaDiff.Proofs.Restoration
import ShaDiff.Proofs.Start

/-!
# Bitwise propagation is confluent

A solver drains a propagator by asking for literals and notifying each as it is given, until
there is no more. Each literal given has no value before, so that comes to an end
(`exists_drains`). Where one run ends in a fixpoint, all that another run from the same
values is given holds there, and no column is contradictory (`Bounded`). So either both
runs end in a conflict, or both end in fixpoints that bound each other.
-/

namespace ShaDiff.Propagator

variable {ρ : Type} {a p q r : Propagator ρ} {l k : Literal} {ls : List Literal}
  {answer : Option Literal} {fixes fixes' : Literal → Bool}

/-- Runs of a solver that does no more than to notify what it is given, at once. -/
inductive Drains (fixes : Literal → Bool) : Propagator ρ → Propagator ρ → Prop
  | last {p q : Propagator ρ} : p.propagate = (none, q) → Drains fixes p q
  | next {p q r : Propagator ρ} {l : Literal} : p.propagate = (some l, q) →
      Drains fixes (q.assign l (fixes l)) r → Drains fixes p r

-- ---------------------------------------------------------------------------
-- Answers
-- ---------------------------------------------------------------------------

/-- Whether an answer, with what is left to be given, is what one column says. -/
def Given (p : Propagator ρ) : Option Literal → Prop
  | some l => ∃ rest, p.status = .propagating rest ∧
    ∃ o ∈ p.topology.operations, ∃ j < p.topology.wordSize, ∃ outcome,
      p.outcome? o j = some outcome ∧ l :: rest = p.columnLiterals o
        (p.topology.inputBits o j) (p.topology.outputBits o j) outcome
  | none => p.status = .idle ∨ (∃ c given, p.status = .blocking c given) ∧
    ∃ o ∈ p.topology.operations, ∃ j < p.topology.wordSize, p.outcome? o j = none

theorem given_findBatch (h : p.Attentive) (hb : p.isBuilt = true)
    (hbitwise : p.config.wordwise = false) (hidle : p.status = .idle) :
    p.findBatch.2.Given p.findBatch.1 := by
  have hready := h.ready hb
  have hfrom := hready.fromPropagation (by rw [p.asked_refresh.config, hbitwise])
  have hfits := fits_findPropagation p.refresh
  have hkept := kept_findPropagation p.refresh
  unfold findBatch
  split
  · next q hfound =>
    rw [hfound] at hkept
    refine .inl (hkept.status.trans ?_)
    rw [refresh_frame]
    exact hidle
  · next c q hfound =>
    rw [hfound] at hfrom hkept
    obtain ⟨o, ho, j, hj, houtcome⟩ := hfrom
    rw [← hkept.topology] at ho hj
    exact .inr ⟨⟨c, 0, rfl⟩, o, ho, j, hj, (hkept.outcome? o j).trans houtcome⟩
  · next found q hfound =>
    rw [hfound] at hfrom hkept hfits
    obtain ⟨o, ho, j, hj, outcome, houtcome, hls⟩ := hfrom
    rw [← hkept.topology] at ho hj hls
    rw [← hkept.columnLiterals] at hls
    cases found with
    | nil => exact .inl rfl
    | cons x found =>
      have hnone : q.literal? x.1 = none := by
        rw [literal?, hkept.valuation]
        exact (hfits x.1 x.2 (.head _)).1
      have hopen (reasons : Std.TreeMap Literal Clause) :
          ({ q with reasons } : Propagator ρ).literal? x.1 = none := hnone
      rw [List.map_cons, giveBatch_of_none (hopen _)]
      exact ⟨_, rfl, o, ho, j, hj, outcome, (hkept.outcome? o j).trans houtcome, hls⟩

structure Batch (p : Propagator ρ) (ls : List Literal) : Prop where
  free : ∀ l ∈ ls, p.literal? l = none
  tracked : ∀ l ∈ ls, p.topology.tracked.contains l.atom = true
  apart : ls.Pairwise (·.atom ≠ ·.atom)

theorem Given.batch (h : p.Given (some l)) (ha : p.Attentive) (hb : p.isBuilt = true) :
    ∃ rest, p.status = .propagating rest ∧ p.Batch (l :: rest) := by
  obtain ⟨rest, hstatus, o, ho, j, -, outcome, houtcome, hls⟩ := h
  obtain ⟨order, hbuilt⟩ := exists_order ha.sound (Option.isSome_iff_ne_none.mp hb)
  have hforced (k : Literal) (hk : k ∈ p.columnLiterals o (p.topology.inputBits o j)
      (p.topology.outputBits o j) outcome) : ∃ b c, k ∈ p.forced b c := by
    obtain ⟨b, c, hforced, -⟩ := exists_of_mem_columnLiterals hk
    exact ⟨b, c, hforced⟩
  refine ⟨rest, hstatus, ?_⟩
  rw [hls]
  refine ⟨fun k hk => ?_, fun k hk => ?_, ?_⟩
  · obtain ⟨b, c, hforced⟩ := hforced k hk
    exact literal?_of_mem_forced hforced
  · obtain ⟨b, c, hforced⟩ := hforced k hk
    obtain ⟨-, r, -, hr, -⟩ := exists_of_mem_forced hforced
    exact tracked_of_literal? ha.sound.tracks hr
  · exact pairwise_columnLiterals hbuilt.distinct ha.sound.tracks ho houtcome

theorem Batch.assign (h : p.Batch (l :: ls)) (hb : p.isBuilt = true) (isFixed : Bool) :
    (p.assign l isFixed).Batch ls := by
  obtain ⟨hl, hapart⟩ := List.pairwise_cons.mp h.apart
  have ht := h.tracked l (.head _)
  refine ⟨fun k hk => ?_, fun k hk => ?_, hapart⟩
  · rw [literal?_eq_none, value?_assign hb ht, if_neg (hl k hk)]
    exact literal?_eq_none.mp (h.free k (.tail _ hk))
  · rw [topology_assign]
    exact h.tracked k (.tail _ hk)

-- ---------------------------------------------------------------------------
-- Draining
-- ---------------------------------------------------------------------------

structure Draining (p : Propagator ρ) : Prop where
  attentive : p.Attentive
  built : p.isBuilt = true
  bitwise : p.config.wordwise = false
  batch : p.Batch p.pending
  underway : (∃ c given, p.status = .blocking c given) ∨
    (∀ l, p.status ≠ .deciding l) ∧ p.Underway p.pending

def Ended (p : Propagator ρ) : Prop :=
  (∃ c given, p.status = .blocking c given) ∨ p.status = .idle ∧ p.Fixpoint ∧
    p.topology.Reflects p.valuation p.characteristic

theorem searched_findBatch (h : p.Attentive) (hb : p.isBuilt = true)
    (hbitwise : p.config.wordwise = false) (hidle : p.status = .idle) (hu : p.Underway [])
    (hq : p.findBatch = (answer, q)) :
    q.Given answer ∧ q.topology.Reflects q.valuation q.characteristic := by
  have hgiven := given_findBatch h hb hbitwise hidle
  have hreflects := (left_findBatch h hb hidle hu).2.2
  rw [hq] at hgiven hreflects
  exact ⟨hgiven, hreflects⟩

theorem Draining.answered (h : p.Draining) (hq : p.propagate = (answer, q)) :
    (∃ l rest, answer = some l ∧ p.pending = l :: rest ∧ q.status = .propagating rest) ∨
    ((∃ c given, p.status = .blocking c given) ∧ answer = none ∧ q = p) ∨
    p.Underway p.pending ∧ q.Given answer ∧
      q.topology.Reflects q.valuation q.characteristic := by
  rcases h.underway with ⟨c, given, hstatus⟩ | ⟨hundecided, hu⟩
  · obtain ⟨rfl, rfl⟩ := Prod.mk.inj (hq.symm.trans (propagate_of_blocking hstatus))
    exact .inr (.inl ⟨⟨c, given, hstatus⟩, rfl, rfl⟩)
  · unfold Propagator.propagate at hq
    rw [if_pos h.built] at hq
    split at hq
    · next batch hstatus =>
      have hpending : p.pending = batch := by rw [pending, hstatus]
      cases batch with
      | nil =>
        have hgiven : p.giveBatch [] = (none, { p with status := .idle }) := rfl
        rw [hgiven] at hq
        rw [hpending] at hu ⊢
        have hattentive : ({ p with status := .idle } : Propagator ρ).Attentive :=
          { h.attentive with
            sound := h.attentive.sound.setIdle
            justified := { h.attentive.justified with blocking := fun _ _ hc => by cases hc } }
        exact .inr (.inr ⟨hu, searched_findBatch hattentive h.built h.bitwise rfl
          (hu.of_status .idle p.counters p.reasons) hq⟩)
      | cons l rest =>
        have hnone := h.batch.free l (hpending ▸ .head _)
        rw [giveBatch_of_none hnone] at hq
        obtain ⟨rfl, rfl⟩ := Prod.mk.inj hq
        exact .inl ⟨l, rest, rfl, hpending, rfl⟩
    · next hstatus =>
      have hpending : p.pending = [] := by rw [pending, hstatus]
      rw [hpending] at hu ⊢
      exact .inr (.inr ⟨hu, searched_findBatch h.attentive h.built h.bitwise hstatus hu hq⟩)
    · next hpropagating hidle =>
      cases hstatus : p.status with
      | idle => exact (hidle hstatus).elim
      | propagating batch => exact (hpropagating batch hstatus).elim
      | deciding l => exact (hundecided l hstatus).elim
      | blocking c given =>
        obtain ⟨rfl, rfl⟩ := Prod.mk.inj hq
        exact .inr (.inl ⟨⟨c, given, rfl⟩, rfl, rfl⟩)

theorem asked_of_propagate (hq : p.propagate = (answer, q)) : p.Asked q := by
  have hasked := p.asked_propagate
  rwa [hq] at hasked

theorem Draining.given (h : p.Draining) (hq : p.propagate = (some l, q)) :
    q.Attentive ∧ ∃ rest, q.status = .propagating rest ∧ q.Batch (l :: rest) ∧
      q.Underway (l :: rest) := by
  have hasked := asked_of_propagate hq
  have hsound := h.attentive.sound.propagate
  have hjustified := h.attentive.justified.propagate
  have hunderway : p.Underway p.pending := by
    refine (h.underway.resolve_left ?_).2
    rintro ⟨c, given, hstatus⟩
    cases (Prod.mk.inj (hq.symm.trans (propagate_of_blocking hstatus))).1
  obtain ⟨hleft, hqueued, hrelaxed⟩ := h.attentive.left_propagate h.built hunderway
  rw [hq] at hsound hjustified hleft hqueued hrelaxed
  have hattentive := h.attentive.of_asked hasked hsound hjustified hqueued hrelaxed
  obtain ⟨rest, hstatus, hbatch⟩ : ∃ rest, q.status = .propagating rest ∧ q.Batch (l :: rest) := by
    rcases h.answered hq with ⟨l', rest, heq, hpending, hstatus⟩ | ⟨-, hnone, -⟩ | ⟨-, hgiven, -⟩
    · obtain rfl := Option.some.inj heq
      have hbatch := h.batch
      rw [hpending] at hbatch
      exact ⟨rest, hstatus, fun k hk => (hasked.literal? k).trans (hbatch.free k hk),
        fun k hk => hasked.topology ▸ hbatch.tracked k hk, hbatch.apart⟩
    · cases hnone
    · exact hgiven.batch hattentive (hasked.isBuilt.trans h.built)
  have hleft : q.Underway (l :: q.pending) := hleft
  rw [pending, hstatus] at hleft
  exact ⟨hattentive, rest, hstatus, hbatch, hleft⟩

/-- A literal that is given has no value, and may be notified. -/
theorem Draining.next (h : p.Draining) (hq : p.propagate = (some l, q)) :
    p.literal? l = none ∧ p.topology.tracked.contains l.atom = true ∧
      ∀ isFixed, (q.assign l isFixed).Draining := by
  have hasked := asked_of_propagate hq
  obtain ⟨hattentive, rest, hstatus, hbatch, hleft⟩ := h.given hq
  have hbuilt := hasked.isBuilt.trans h.built
  have hnone := hbatch.free l (.head _)
  refine ⟨(hasked.literal? l).symm.trans hnone, hasked.topology ▸ hbatch.tracked l (.head _),
    fun isFixed => ?_⟩
  have hallows : q.allows (.call (.assign l isFixed)) = true := by
    simp [Propagator.allows, literal?_eq_none.mp hnone]
  have hframe := q.assign_frame l isFixed
  have hpending : (q.assign l isFixed).pending = rest := by
    rw [pending_assign, pending, hstatus]
  refine ⟨hattentive.assign hallows, (isBuilt_assign q l isFixed).trans hbuilt, ?_, ?_,
    .inr ⟨fun k hk => ?_, ?_⟩⟩
  · rw [hframe]
    exact hasked.config ▸ h.bitwise
  · rw [hpending]
    exact hbatch.assign hbuilt isFixed
  · rw [hframe, hstatus] at hk
    cases hk
  · rw [hpending]
    refine (hleft.assign hattentive.sound.tracks hbuilt hallows).mono rfl rfl
      (fun _ => rfl) (fun _ _ hv => hv) (fun _ hm => hm) (fun _ hi => hi) fun k hk => .inl ?_
    obtain ⟨hk, hne⟩ := List.mem_filter.mp hk
    refine (List.mem_cons.mp hk).resolve_left ?_
    rintro rfl
    simp at hne

theorem Draining.last (h : p.Draining) (hq : p.propagate = (none, q)) : q.Ended := by
  rcases h.answered hq with ⟨l, rest, heq, -⟩ | ⟨hblocking, -, rfl⟩ | ⟨hu, hgiven, hreflects⟩
  · cases heq
  · exact .inl hblocking
  · rcases hgiven with hidle | ⟨hblocking, -⟩
    · have hleft := (h.attentive.left_propagate h.built hu).1
      rw [hq] at hleft
      rcases hleft with ⟨c, given, hblocking⟩ | ⟨-, hfixpoint⟩
      · exact nomatch hidle.symm.trans hblocking
      · exact .inr ⟨hidle, hfixpoint hidle⟩
    · exact .inl hblocking

-- ---------------------------------------------------------------------------
-- Runs
-- ---------------------------------------------------------------------------

def freeAtoms (p : Propagator ρ) : List Atom :=
  p.topology.tracked.keys.filter fun a => (p.value? a).isNone

theorem freeAtoms_assign (hb : p.isBuilt = true)
    (ht : p.topology.tracked.contains l.atom = true) (isFixed : Bool) :
    (p.assign l isFixed).freeAtoms = p.freeAtoms.filter fun a => !(l.atom == a) := by
  rw [freeAtoms, freeAtoms, topology_assign, List.filter_filter]
  refine List.filter_congr fun a _ => ?_
  rw [value?_assign hb ht]
  by_cases ha : l.atom = a <;> simp [ha]

theorem length_freeAtoms_assign (hb : p.isBuilt = true)
    (ht : p.topology.tracked.contains l.atom = true) (hl : p.literal? l = none) (isFixed : Bool) :
    (p.assign l isFixed).freeAtoms.length < p.freeAtoms.length := by
  rw [freeAtoms_assign hb ht, List.length_filter_lt_length_iff_exists]
  refine ⟨l.atom, List.mem_filter.mpr ⟨?_, ?_⟩, by simp⟩
  · exact Std.TreeMap.mem_keys.mpr (Std.TreeMap.contains_iff_mem.mp ht)
  · rw [literal?_eq_none.mp hl]
    rfl

theorem Asked.freeAtoms (h : p.Asked q) : q.freeAtoms = p.freeAtoms := by
  rw [Propagator.freeAtoms, Propagator.freeAtoms, h.topology]
  exact List.filter_congr fun a _ => by rw [h.value?]

/-- Each literal that is given leaves one atom less to be given. -/
theorem Draining.exists_drains (h : p.Draining) (fixes : Literal → Bool) :
    ∃ q, Drains fixes p q := by
  induction hn : p.freeAtoms.length using Nat.strongRecOn generalizing p with
  | ind n ih =>
    cases hq : p.propagate with
    | mk answer q =>
      cases answer with
      | none => exact ⟨q, .last hq⟩
      | some l =>
        obtain ⟨hnone, htracked, hnext⟩ := h.next hq
        have hasked := asked_of_propagate hq
        have hless := length_freeAtoms_assign (p := q) (l := l)
          (hasked.isBuilt.trans h.built) (hasked.topology ▸ htracked)
          ((hasked.literal? l).trans hnone) (fixes l)
        rw [hasked.freeAtoms, hn] at hless
        obtain ⟨r, hr⟩ := ih _ hless (hnext (fixes l)) rfl
        exact ⟨r, .next hq hr⟩

theorem Drains.unique (hq : Drains fixes p q) (hr : Drains fixes p r) : q = r := by
  induction hq with
  | last hq =>
    cases hr with
    | last hr => exact (Prod.mk.inj (hq.symm.trans hr)).2
    | next hr _ => cases (Prod.mk.inj (hq.symm.trans hr)).1
  | next hq _ ih =>
    cases hr with
    | last hr => cases (Prod.mk.inj (hq.symm.trans hr)).1
    | next hr hrest =>
      obtain ⟨heq, rfl⟩ := Prod.mk.inj (hq.symm.trans hr)
      obtain rfl := Option.some.inj heq
      exact ih hrest

theorem Drains.ended (hd : Drains fixes p q) (h : p.Draining) : q.Ended ∧ p.Extends q := by
  induction hd with
  | last hq => exact ⟨h.last hq, (asked_of_propagate hq).extends⟩
  | next hq _ ih =>
    have hasked := asked_of_propagate hq
    obtain ⟨hnone, -, hnext⟩ := h.next hq
    obtain ⟨hended, hextends⟩ := ih (hnext _)
    refine ⟨hended, fun a v hv => hextends a v (extends_assign ?_ a v (hasked.extends a v hv))⟩
    simp [Propagator.allows, hasked.value?, literal?_eq_none.mp hnone]

theorem Drains.topology (hd : Drains fixes p q) : q.topology = p.topology := by
  induction hd with
  | last hq => exact (asked_of_propagate hq).topology
  | next hq _ ih => rw [ih, topology_assign, (asked_of_propagate hq).topology]

/-- Whether all that is known or yet to be given holds under the conditions of another
propagator, and no clause is pending. -/
structure Bounded (a p : Propagator ρ) : Prop where
  value : ∀ l, p.literal? l = some true → a.Implies l
  pending : ∀ l ∈ p.pending, a.Implies l
  free : ∀ c given, p.status ≠ .blocking c given

def Bounds (a p : Propagator ρ) : Option Literal → Prop
  | some l => ∃ rest, p.status = .propagating rest ∧ ∀ k ∈ l :: rest, a.Implies k
  | none => p.status = .idle

/-- Conditions that reflect values are bounded if the values are. -/
theorem subset_of_bounded (htopology : p.topology = a.topology)
    (hvalue : ∀ l, p.literal? l = some true → a.Implies l)
    (hreflects : p.topology.Reflects p.valuation p.characteristic) (b : Bit) :
    (a.condition b).subset (p.condition b) = true := by
  cases hz : b.isZero with
  | true =>
    rw [condition_of_isZero hz, condition_of_isZero hz]
    exact Condition.subset_iff.mpr fun _ hx => hx
  | false =>
    rw [show p.condition b = p.freshCondition b from hreflects b hz]
    refine Condition.subset_iff.mpr fun x hx => Encoding.allows_refresh.mpr fun r hr hholds => ?_
    rw [Encoding.Region.holds, join_values, beq_iff_eq] at hholds
    obtain ⟨atom, hatom, hv⟩ := Option.bind_eq_some_iff.mp hholds
    have htrue : p.literal? ⟨atom, r.polarity⟩ = some true :=
      literal?_eq_some.mpr (by rw [hv]; simp)
    refine Condition.subset_iff.mp (hvalue _ htrue b r ?_ ?_) x hx
    · rwa [encoding, ← htopology]
    · rw [← htopology, Encoding.Region.literal?, hatom]
      rfl

/-- What is searched under weaker conditions than those of a fixpoint finds no conflict, and
only what holds there. -/
theorem Given.bounded (h : p.Given answer) (ha : a.Fixpoint) (ht : a.topology.Tracks)
    (hreflects : a.topology.Reflects a.valuation a.characteristic)
    (htopology : p.topology = a.topology)
    (hweaker : ∀ b, (a.condition b).subset (p.condition b) = true) : a.Bounds p answer := by
  have hcolumn (o : Operation) (ho : o ∈ p.topology.operations) (j : Nat)
      (hj : j < p.topology.wordSize) :=
    (ha.column o (htopology ▸ ho) j (htopology ▸ hj)).implies ht hreflects htopology
      fun b _ => hweaker b
  cases answer with
  | some l =>
    obtain ⟨rest, hstatus, o, ho, j, hj, outcome, houtcome, hls⟩ := h
    obtain ⟨outcome', houtcome', himplies⟩ := hcolumn o ho j hj
    obtain rfl := Option.some.inj (houtcome.symm.trans houtcome')
    rw [← hls] at himplies
    exact ⟨rest, hstatus, fun l hl => (himplies l hl).resolve_left List.not_mem_nil⟩
  | none =>
    refine h.resolve_right ?_
    rintro ⟨-, o, ho, j, hj, houtcome⟩
    obtain ⟨outcome, houtcome', -⟩ := hcolumn o ho j hj
    exact nomatch houtcome.symm.trans houtcome'

theorem Bounded.propagate (hb : Bounded a p) (h : p.Draining) (ha : a.Fixpoint)
    (ht : a.topology.Tracks) (hreflects : a.topology.Reflects a.valuation a.characteristic)
    (htopology : p.topology = a.topology) (hq : p.propagate = (answer, q)) :
    a.Bounds q answer := by
  have hasked := asked_of_propagate hq
  rcases h.answered hq with ⟨l, rest, rfl, hpending, hstatus⟩ | ⟨⟨c, given, hblocking⟩, -⟩ |
    ⟨-, hgiven, hreflects'⟩
  · exact ⟨rest, hstatus, hpending ▸ hb.pending⟩
  · exact absurd hblocking (hb.free c given)
  · have htopology' := hasked.topology.trans htopology
    refine hgiven.bounded ha ht hreflects htopology' (subset_of_bounded htopology' ?_ hreflects')
    exact fun l hl => hb.value l ((hasked.literal? l).symm.trans hl)

/-- A run that a fixpoint bounds ends in a fixpoint, which it bounds too. -/
theorem Drains.bounded (hd : Drains fixes p q) (h : p.Draining) (ha : a.Fixpoint)
    (ht : a.topology.Tracks) (hreflects : a.topology.Reflects a.valuation a.characteristic)
    (htopology : p.topology = a.topology) (hb : Bounded a p) :
    q.status = .idle ∧ q.topology = a.topology ∧
      ∀ l, q.literal? l = some true → a.Implies l := by
  induction hd with
  | last hq =>
    have hasked := asked_of_propagate hq
    refine ⟨hb.propagate h ha ht hreflects htopology hq, hasked.topology.trans htopology,
      fun l hl => hb.value l ?_⟩
    rwa [← hasked.literal?]
  | @next p q r l hq _ ih =>
    have hasked := asked_of_propagate hq
    obtain ⟨rest, hstatus, himplies⟩ := hb.propagate h ha ht hreflects htopology hq
    obtain ⟨hnone, htracked, hnext⟩ := h.next hq
    have hframe := q.assign_frame l (fixes l)
    refine ih (hnext _) ?_ ⟨fun k hk => ?_, fun k hk => ?_, fun c given hc => ?_⟩
    · rw [topology_assign, hasked.topology, htopology]
    · rw [literal?_eq_some, value?_assign (hasked.isBuilt.trans h.built)
        (hasked.topology ▸ htracked)] at hk
      split at hk
      · next hatom =>
        obtain rfl : l = k := by
          rcases l with ⟨x, v⟩
          rcases k with ⟨y, w⟩
          simpa [eq_comm] using And.intro hatom hk
        exact himplies l (.head _)
      · rw [hasked.value?] at hk
        exact hb.value k (literal?_eq_some.mpr hk)
    · rw [pending_assign, pending, hstatus] at hk
      exact himplies k (.tail _ hk)
    · rw [hframe, hstatus] at hc
      cases hc

-- ---------------------------------------------------------------------------
-- Orders
-- ---------------------------------------------------------------------------

theorem Draining.of_idle (h : p.Attentive) (hb : p.isBuilt = true)
    (hbitwise : p.config.wordwise = false) (hidle : p.status = .idle) (hu : p.Underway []) :
    p.Draining := by
  have hpending : p.pending = [] := by rw [pending, hidle]
  have hempty : p.Batch [] := ⟨List.forall_mem_nil _, List.forall_mem_nil _, .nil⟩
  refine ⟨h, hb, hbitwise, hpending ▸ hempty, .inr ⟨fun l hl => ?_, hpending ▸ hu⟩⟩
  cases hidle.symm.trans hl

theorem draining_assignAll (h : p.Attentive) (hb : p.isBuilt = true)
    (hbitwise : p.config.wordwise = false) (hidle : p.status = .idle) (hu : p.Underway [])
    {told : List (Literal × Bool)} (hnodup : (told.map (·.1.atom)).Nodup)
    (hnone : ∀ x ∈ told, p.value? x.1.atom = none) :
    (p.assignAll told).Draining ∧ (p.assignAll told).status = .idle := by
  induction told generalizing p with
  | nil => exact ⟨.of_idle h hb hbitwise hidle hu, hidle⟩
  | cons x told ih =>
    obtain ⟨l, isFixed⟩ := x
    obtain ⟨hl, hnodup⟩ := List.nodup_cons.mp hnodup
    obtain ⟨hlnone, hnone⟩ := List.forall_mem_cons.mp hnone
    have hframe := p.assign_frame l isFixed
    have hallows : p.allows (.call (.assign l isFixed)) = true := by
      simp [Propagator.allows, hlnone]
    refine ih (p := p.assign l isFixed) (h.assign hallows) ((isBuilt_assign p l isFixed).trans hb)
      ?_ ?_ (hu.assign h.sound.tracks hb hallows) hnodup fun x hx => ?_
    · rw [hframe]
      exact hbitwise
    · rw [hframe]
      exact hidle
    · cases ht : p.topology.tracked.contains l.atom with
      | false =>
        rw [assign_of_untracked ht]
        exact hnone x hx
      | true =>
        rw [value?_assign hb ht, if_neg fun heq => hl (List.mem_map.mpr ⟨x, hx, heq.symm⟩)]
        exact hnone x hx

def valueOf (ls : List Literal) (a : Atom) : Option Bool :=
  if ⟨a, true⟩ ∈ ls then some true else if ⟨a, false⟩ ∈ ls then some false else none

theorem valueOf_eq_some (hconsistent : ∀ l ∈ ls, l.negate ∉ ls) (hl : l ∈ ls) :
    valueOf ls l.atom = some l.polarity := by
  rcases l with ⟨a, _ | _⟩
  · have hne : (⟨a, true⟩ : Literal) ∉ ls := hconsistent _ hl
    simp [valueOf, hl, hne]
  · simp [valueOf, hl]

theorem value?_assignAll_of_perm (hb : p.isBuilt = true) {told told' : List (Literal × Bool)}
    (hconsistent : ∀ l ∈ told.map (·.1), l.negate ∉ told.map (·.1))
    (hperm : (told'.map (·.1)).Perm (told.map (·.1))) (x : Atom) :
    (p.assignAll told').value? x = (p.assignAll told).value? x := by
  have hatoms : x ∈ told'.map (·.1.atom) ↔ x ∈ told.map (·.1.atom) := by
    have hmem := (hperm.map Literal.atom).mem_iff (a := x)
    rwa [List.map_map, List.map_map] at hmem
  rw [value?_assignAll hb (w := valueOf (told.map (·.1))) (fun l hl _ =>
      valueOf_eq_some hconsistent (hperm.mem_iff.mp hl)),
    value?_assignAll hb (w := valueOf (told.map (·.1))) (fun l hl _ =>
      valueOf_eq_some hconsistent hl)]
  simp only [hatoms]

theorem nodup_atoms {told : List (Literal × Bool)} (hnodup : (told.map (·.1)).Nodup)
    (hconsistent : ∀ l ∈ told.map (·.1), l.negate ∉ told.map (·.1)) :
    (told.map (·.1.atom)).Nodup := by
  have hatoms : told.map (·.1.atom) = (told.map (·.1)).map Literal.atom := by
    rw [List.map_map]
    rfl
  rw [hatoms]
  refine List.Nodup.map_on (fun l hl k hk hatom => ?_) hnodup
  by_contra hne
  have hnegate : k = l.negate := by
    rcases l with ⟨a, v⟩
    rcases k with ⟨a', w⟩
    obtain rfl : a = a' := hatom
    cases v <;> cases w <;> simp_all [Literal.negate]
  exact hconsistent l hl (hnegate ▸ hk)

/-- A run from the same values as one that ended in a fixpoint ends in one no stronger. -/
theorem Drains.subset (hq : Drains fixes p q) (hr : Drains fixes' a r) (hp : p.Draining)
    (ha : a.Draining) (htopology : a.topology = p.topology)
    (hvalue : ∀ x, a.value? x = p.value? x) (hidle : a.status = .idle) (hf : q.Fixpoint)
    (hreflects : q.topology.Reflects q.valuation q.characteristic) :
    r.status = .idle ∧ (r.topology.Reflects r.valuation r.characteristic →
      ∀ b, (q.condition b).subset (r.condition b) = true) := by
  have hsame := hq.topology
  have hbounded : Bounded q a := by
    refine ⟨fun l hl => implies_of_true hreflects ((hq.ended hp).2.literal? ?_), ?_, ?_⟩
    · rw [literal?_eq_some] at hl ⊢
      rwa [← hvalue]
    · rw [pending, hidle]
      exact List.forall_mem_nil _
    · intro c given hc
      rw [hidle] at hc
      cases hc
  obtain ⟨hstatus, htopology', himplies⟩ := hr.bounded ha hf (hsame ▸ hp.attentive.sound.tracks)
    hreflects (htopology.trans hsame.symm) hbounded
  exact ⟨hstatus, subset_of_bounded htopology' himplies⟩

/-- However some literals are ordered, a propagator without wordwise propagation that is told
them is drained in the end, and either all orders lead to a conflict or all lead to the
same conditions. They are a fixpoint then, and those that the values of the atoms give. -/
theorem drains_confluent [Coin ρ] {config : Config} {source : ρ} {entries : List (String × Int)}
    {told told' : List (Literal × Bool)} (hn : config.wordSize ≤ wordSizeMax)
    (hbitwise : config.wordwise = false)
    (hp : (new config source).serveAll? (entryRequests entries) = some p)
    (hb : p.isBuilt = true) (hnodup : (told.map (·.1)).Nodup)
    (hconsistent : ∀ l ∈ told.map (·.1), l.negate ∉ told.map (·.1))
    (hperm : (told'.map (·.1)).Perm (told.map (·.1))) (fixes fixes' : Literal → Bool) :
    ∃ q r, Drains fixes (p.assignAll told) q ∧ Drains fixes' (p.assignAll told') r ∧
      ((∃ c given, q.status = .blocking c given) ∧ (∃ c given, r.status = .blocking c given) ∨
        q.status = .idle ∧ r.status = .idle ∧ q.Fixpoint ∧ r.Fixpoint ∧
          q.topology.Reflects q.valuation q.characteristic ∧
          r.topology.Reflects r.valuation r.characteristic ∧
          ∀ b, q.condition b = r.condition b) := by
  have hstarted := started_of_entries hn hp hb
  have hbitwise : p.config.wordwise = false := hstarted.config ▸ hbitwise
  have hatoms := nodup_atoms hnodup hconsistent
  have hatoms' : (told'.map (·.1.atom)).Nodup := by
    have hperm := hperm.map Literal.atom
    rw [List.map_map, List.map_map] at hperm
    exact hperm.nodup_iff.mpr hatoms
  have hdraining {told : List (Literal × Bool)} (hatoms : (told.map (·.1.atom)).Nodup) :=
    draining_assignAll hstarted.attentive hb hbitwise hstarted.status hstarted.underway hatoms
      fun x _ => hstarted.value x.1.atom
  obtain ⟨hp, hidle⟩ := hdraining hatoms
  obtain ⟨hp', hidle'⟩ := hdraining hatoms'
  have hvalue := value?_assignAll_of_perm hb hconsistent hperm
  have htopology : (p.assignAll told').topology = (p.assignAll told).topology := by
    rw [topology_assignAll, topology_assignAll]
  obtain ⟨q, hq⟩ := hp.exists_drains fixes
  obtain ⟨r, hr⟩ := hp'.exists_drains fixes'
  refine ⟨q, r, hq, hr, ?_⟩
  have hle := hq.subset hr hp hp' htopology hvalue hidle'
  have hge := hr.subset hq hp' hp htopology.symm (fun x => (hvalue x).symm) hidle
  rcases (hq.ended hp).1 with hblocking | ⟨hqidle, hqfixpoint, hqreflects⟩ <;>
    rcases (hr.ended hp').1 with hblocking' | ⟨hridle, hrfixpoint, hrreflects⟩
  · exact .inl ⟨hblocking, hblocking'⟩
  · obtain ⟨c, given, hblocking⟩ := hblocking
    exact nomatch hblocking.symm.trans (hge hrfixpoint hrreflects).1
  · obtain ⟨c, given, hblocking⟩ := hblocking'
    exact nomatch hblocking.symm.trans (hle hqfixpoint hqreflects).1
  · refine .inr ⟨hqidle, hridle, hqfixpoint, hrfixpoint, hqreflects, hrreflects, fun b => ?_⟩
    exact Condition.subset_antisymm ((hle hqfixpoint hqreflects).2 hrreflects b)
      ((hge hrfixpoint hrreflects).2 hqreflects b)

/-- Two addends and the carry of one column, in either order. -/
theorem drains_wideEntries :
    let told : List (Literal × Bool) :=
      [(⟨5, false⟩, false), (⟨49, false⟩, false), (⟨55, true⟩, false)]
    let config : Config := { encoding := .li2024, wordSize := 2, wordwise := false }
    ∃ p q r : Propagator Pcg,
      (new config (.ofSeed 0)).serveAll? (entryRequests Topology.wideEntries) = some p ∧
      Drains (fun _ => false) (p.assignAll told) q ∧
      Drains (fun _ => false) (p.assignAll told.reverse) r ∧
      ((∃ c given, q.status = .blocking c given) ∧ (∃ c given, r.status = .blocking c given) ∨
        q.status = .idle ∧ r.status = .idle ∧ q.Fixpoint ∧ r.Fixpoint ∧
          q.topology.Reflects q.valuation q.characteristic ∧
          r.topology.Reflects r.valuation r.characteristic ∧
          ∀ b, q.condition b = r.condition b) := by
  intro told config
  have hserved : ((new config (Pcg.ofSeed 0)).serveAll?
      (entryRequests Topology.wideEntries)).map (·.isBuilt) = some true := by decide +kernel
  obtain ⟨p, hp, hb⟩ := Option.map_eq_some_iff.mp hserved
  have hperm : (told.reverse.map (·.1)).Perm (told.map (·.1)) := by decide
  obtain ⟨q, r, hq, hr, hends⟩ := drains_confluent (by decide) rfl hp hb (by decide) (by decide)
    hperm (fun _ => false) fun _ => false
  exact ⟨p, q, r, hp, hq, hr, hends⟩

end ShaDiff.Propagator
