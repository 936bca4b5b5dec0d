import ShaDiff.Proofs.Propagator.Refreshing
import ShaDiff.Proofs.Request
import ShaDiff.Proofs.Topology.Range

/-!
# Ranges of what is dirty and marked

Bits become dirty through the places of atoms, and columns and sums are marked by those who read
a bit. As all of these are in range in a topology, what is dirty is a bit of a word that is there,
and what is marked is a column of an operation or a sum that is there (`InRange`). Before the
topology is built nothing is dirty, recorded or marked, so that the build, which adds operations
and sums, takes nothing out of range.
-/

namespace ShaDiff

-- ---------------------------------------------------------------------------
-- Marks
-- ---------------------------------------------------------------------------

namespace Marks

variable {m : Marks} {operations sums : Nat}

/-- Whether only columns of so many operations, and so many sums, are marked. -/
structure Within (operations sums : Nat) (m : Marks) : Prop where
  column : ∀ s, m.marked.contains s = true → s.operation < operations
  sum : ∀ i ∈ m.sums, i < sums

theorem within_empty (operations sums : Nat) : empty.Within operations sums where
  column s hs := by simp [empty] at hs
  sum := nofun

theorem Within.foldl_markColumn (h : m.Within operations sums) {sites : List Site}
    (hsites : ∀ s ∈ sites, s.operation < operations) :
    (sites.foldl .markColumn m).Within operations sums := by
  obtain ⟨hsums, -, hmarked⟩ := m.foldl_markColumn sites
  exact ⟨fun s hs => ((hmarked s).mp hs).elim (hsites s) (h.column s), hsums ▸ h.sum⟩

theorem Within.foldl_markSum (h : m.Within operations sums) {is : List Nat}
    (his : ∀ i ∈ is, i < sums) : (is.foldl .markSum m).Within operations sums := by
  obtain ⟨hmarked, -, hsums⟩ := m.foldl_markSum is
  exact ⟨hmarked ▸ h.column, fun i hi => ((hsums i).mp hi).elim (his i) (h.sum i)⟩

theorem Within.nextColumn (h : m.Within operations sums) :
    (∀ s, m.nextColumn.1 = some s → s.operation < operations) ∧
      m.nextColumn.2.Within operations sums := by
  obtain ⟨hsums, hmarked⟩ := m.nextColumn_frame
  refine ⟨fun s hs => h.column s (contains_of_nextColumn hs), fun s hs => ?_, hsums ▸ h.sum⟩
  rw [hmarked] at hs
  cases hnext : m.nextColumn.1 with
  | none => exact h.column s (by rwa [hnext] at hs)
  | some u => exact h.column s ((contains_erase _ _ _).mp (by rwa [hnext] at hs)).2

theorem Within.nextSum (h : m.Within operations sums) :
    (∀ i, m.nextSum.1 = some i → i < sums) ∧ m.nextSum.2.Within operations sums := by
  unfold Marks.nextSum
  split
  · exact ⟨nofun, h⟩
  · next i rest hsums =>
    have hsum := h.sum
    rw [hsums, List.forall_mem_cons] at hsum
    exact ⟨fun j hj => Option.some.inj hj ▸ hsum.1, h.column, hsum.2⟩

end Marks

-- ---------------------------------------------------------------------------
-- Dirty bits
-- ---------------------------------------------------------------------------

namespace Valuation

variable {v : Valuation} {b c : Bit}

theorem of_mem_dirty_markDirty (h : c ∈ (v.markDirty b).dirty) : c = b ∨ c ∈ v.dirty := by
  unfold markDirty at h
  split at h
  · exact .inr h
  · exact List.mem_cons.mp h

theorem of_mem_dirty_assign {t : Tracking} {l : Literal} (h : c ∈ (v.assign t l).2.dirty) :
    (∃ p, t[l.atom]? = some p ∧ c = p.bit) ∨ c ∈ v.dirty := by
  unfold assign at h
  split at h
  · exact .inr h
  · next p hp => exact (of_mem_dirty_markDirty h).imp_left fun hc => ⟨p, hp, hc⟩

theorem of_mem_dirty_unassign {t : Tracking} {a : Atom} (h : c ∈ (v.unassign t a).2.dirty) :
    (∃ p, t[a]? = some p ∧ c = p.bit) ∨ c ∈ v.dirty := by
  unfold unassign at h
  split at h
  · exact .inr h
  · next p hp =>
    split at h
    · exact .inr h
    · exact (of_mem_dirty_markDirty h).imp_left fun hc => ⟨p, hp, hc⟩

end Valuation

-- ---------------------------------------------------------------------------
-- Propagators
-- ---------------------------------------------------------------------------

namespace Propagator

variable {ρ : Type} {p q : Propagator ρ}

/-- Whether all that is dirty and marked is there. -/
structure InRange (p : Propagator ρ) : Prop where
  bounded : p.topology.order = none → p.topology.Bounded
  ranged : p.topology.Ranged
  trail : p.topology.order = none → p.trail.toList = []
  clean : p.topology.order = none → p.valuation.dirty = []
  dirty : ∀ b ∈ p.valuation.dirty, b.isZero = false ∧ p.topology.HasBit b
  marks : p.marks.Within p.topology.operations.size p.topology.sums.size

theorem inRange_new (config : Config) (source : ρ) : (new config source).InRange where
  bounded _ := Topology.bounded_initial _ _
  ranged := (Topology.bounded_initial _ _).ranged
  trail _ := rfl
  clean _ := rfl
  dirty := nofun
  marks := Marks.within_empty _ _

theorem InRange.configure (h : p.InRange) {name : String} {value : Int}
    (hc : p.configure name value = .ok (.ok (), q)) : q.InRange := by
  simp only [Propagator.configure, bind, Except.bind] at hc
  split at hc
  · cases hc
  · next entered henter =>
    obtain ⟨result, t⟩ := entered
    simp only [pure, Except.pure, Except.ok.injEq, Prod.mk.injEq] at hc
    obtain ⟨rfl, rfl⟩ := hc
    have hnone := (Topology.enter_ok henter).1
    have hbounded := h.bounded hnone
    have hclean : (if p.isBuilt || !t.isBuilt then p.valuation else .empty).dirty = [] := by
      split
      · exact h.clean hnone
      · rfl
    refine ⟨fun horder => hbounded.enter henter horder, hbounded.ranged_of_enter henter,
      fun _ => h.trail hnone, fun _ => hclean, ?_, ?_⟩
    · rw [hclean]
      exact List.forall_mem_nil _
    · have hmarks := h.marks
      rw [hbounded.operations, hbounded.sums] at hmarks
      exact ⟨fun s hs => absurd (hmarks.column s hs) (Nat.not_lt_zero _),
        fun i hi => absurd (hmarks.sum i hi) (Nat.not_lt_zero _)⟩

theorem within_refreshBit (hr : p.topology.Ranged)
    (h : p.marks.Within p.topology.operations.size p.topology.sums.size) (b : Bit) :
    (p.refreshBit b).marks.Within p.topology.operations.size p.topology.sums.size := by
  rcases p.marks_refreshBit b with ⟨hsame, -⟩ | hreaders
  · rwa [hsame]
  · rw [hreaders]
    exact (h.foldl_markColumn fun s hs => hr.sites hs).foldl_markSum fun i hi => hr.sums hi

theorem within_refresh (hr : p.topology.Ranged)
    (h : p.marks.Within p.topology.operations.size p.topology.sums.size) :
    p.refresh.marks.Within p.topology.operations.size p.topology.sums.size := by
  have hbits (bits : List Bit) {p : Propagator ρ} (hr : p.topology.Ranged)
      (h : p.marks.Within p.topology.operations.size p.topology.sums.size) :
      (bits.foldl refreshBit p).marks.Within p.topology.operations.size p.topology.sums.size := by
    induction bits generalizing p with
    | nil => exact h
    | cons b bits ih =>
      have hlater := ih (p := p.refreshBit b) (by rwa [refreshBit_frame])
        (by rw [refreshBit_frame]; exact within_refreshBit hr h b)
      rwa [show (p.refreshBit b).topology = p.topology by rw [refreshBit_frame]] at hlater
  exact hbits p.valuation.takeDirty.1 (p := { p with valuation := p.valuation.takeDirty.2 }) hr h

theorem InRange.refresh (h : p.InRange) : p.refresh.InRange := by
  have hmarks := within_refresh h.ranged h.marks
  rw [refresh_frame] at hmarks ⊢
  exact { h with clean := fun _ => rfl, dirty := nofun, marks := hmarks }

-- ---------------------------------------------------------------------------
-- Searches
-- ---------------------------------------------------------------------------

section

variable {operations sums : Nat}

theorem within_propagateColumns (h : p.marks.Within operations sums) (turns : Nat) :
    (propagateColumns turns p).2.marks.Within operations sums := by
  induction turns generalizing p with
  | zero => exact h
  | succ turns ih =>
    have hnext := h.nextColumn
    unfold propagateColumns
    split
    · next marks heq =>
      rw [heq] at hnext
      exact hnext.2
    · next s marks heq =>
      rw [heq] at hnext
      have hcolumn : ({ p with marks }.propagateColumn s).2.marks.Within operations sums := by
        rw [marks_propagateColumn]
        exact hnext.2
      split
      · next q hq =>
        rw [hq] at hcolumn
        exact ih hcolumn
      · exact hcolumn

theorem within_propagateSums (h : p.marks.Within operations sums) (turns : Nat) :
    (propagateSums turns p).2.marks.Within operations sums := by
  induction turns generalizing p with
  | zero => exact h
  | succ turns ih =>
    have hnext := h.nextSum
    unfold propagateSums
    split
    · exact h
    · next i marks heq =>
      rw [heq] at hnext
      have hsum : ({ p with marks }.propagateSum i).2.marks.Within operations sums := by
        rw [marks_propagateSum]
        exact hnext.2
      split
      · next q hq =>
        rw [hq] at hsum
        exact ih hsum
      · exact hsum

theorem within_findPropagation (h : p.marks.Within operations sums) :
    p.findPropagation.2.marks.Within operations sums := by
  have hcolumns := within_propagateColumns h (p.marks.marked.size + 1)
  unfold findPropagation
  split
  · next q hq =>
    rw [hq] at hcolumns
    split
    · exact within_propagateSums hcolumns _
    · exact ⟨hcolumns.column, nofun⟩
  · exact hcolumns

end

theorem InRange.of_kept (h : p.InRange) (hkept : p.Kept q)
    (hmarks : q.marks.Within p.topology.operations.size p.topology.sums.size) : q.InRange where
  bounded := hkept.topology ▸ h.bounded
  ranged := hkept.topology ▸ h.ranged
  trail := hkept.topology ▸ hkept.trail ▸ h.trail
  clean := hkept.topology ▸ hkept.valuation ▸ h.clean
  dirty := hkept.topology ▸ hkept.valuation ▸ h.dirty
  marks := hkept.topology ▸ hmarks

-- ---------------------------------------------------------------------------
-- Calls
-- ---------------------------------------------------------------------------

theorem InRange.foldl_unassign (h : p.InRange) (ls : List Literal) :
    ∀ b ∈ (ls.foldl (fun v l => (v.unassign p.topology.tracked l.atom).2) p.valuation).dirty,
      b.isZero = false ∧ p.topology.HasBit b := by
  have hvaluation (v : Valuation) (hv : ∀ b ∈ v.dirty, b.isZero = false ∧ p.topology.HasBit b) :
      ∀ b ∈ (ls.foldl (fun v l => (v.unassign p.topology.tracked l.atom).2) v).dirty,
        b.isZero = false ∧ p.topology.HasBit b := by
    induction ls generalizing v with
    | nil => exact hv
    | cons l ls ih =>
      refine ih _ fun b hb => ?_
      obtain ⟨place, hplace, rfl⟩ | hb := Valuation.of_mem_dirty_unassign hb
      · exact ⟨(h.ranged.tracked hplace).isZero, (h.ranged.tracked hplace).toHasBit⟩
      · exact hv b hb
  exact hvaluation p.valuation h.dirty

theorem InRange.assign (h : p.InRange) (l : Literal) (isFixed : Bool) :
    (p.assign l isFixed).InRange := by
  unfold Propagator.assign
  split
  · next hb =>
    have hbuilt : p.topology.order ≠ none :=
      Option.isSome_iff_ne_none.mp (Bool.and_eq_true_iff.mp hb).1
    refine ⟨fun hnone => absurd hnone hbuilt, h.ranged, fun hnone => absurd hnone hbuilt,
      fun hnone => absurd hnone hbuilt, fun b hmem => ?_, h.marks⟩
    obtain ⟨place, hplace, rfl⟩ | hmem := Valuation.of_mem_dirty_assign hmem
    · exact ⟨(h.ranged.tracked hplace).isZero, (h.ranged.tracked hplace).toHasBit⟩
    · refine h.dirty b ?_
      cases isFixed <;> exact hmem
  · exact h

theorem InRange.trail_of_answer [Coin ρ] (h : p.InRange) (hnone : p.topology.order = none)
    {c : Call} {a : Answer} (ha : p.answer c = .ok (a, q)) : q.trail.toList = [] := by
  have hempty := h.trail hnone
  cases hc : c.isQuestion with
  | true => rw [(asked_answer hc ha).trail, hempty]
  | false =>
    cases c with
    | assign l isFixed =>
      obtain ⟨-, rfl⟩ := Prod.mk.inj (Except.ok.inj ha)
      have hsame : p.assign l isFixed = p := by
        simp [Propagator.assign, isBuilt, Topology.isBuilt, hnone]
      rw [hsame, hempty]
    | openLevel =>
      obtain ⟨-, rfl⟩ := Prod.mk.inj (Except.ok.inj ha)
      rw [openLevel_frame]
      exact p.trail.toList_push.trans hempty
    | backtrack level =>
      obtain ⟨-, rfl⟩ := Prod.mk.inj (Except.ok.inj ha)
      have hpopped := p.trail.toList_popTo level
      rw [hempty, List.append_eq_nil_iff] at hpopped
      exact (congrArg Trail.toList (returned_backtrack p level).trail).trans hpopped.1
    | _ => cases hc

theorem dirty_reached (p : Propagator ρ) (c : Call) :
    (p.reached c).valuation.dirty = p.valuation.dirty ∨ (p.reached c).valuation.dirty = [] := by
  unfold reached
  cases p.refreshes? c with
  | none => exact .inl rfl
  | some s =>
    have hclean : s.refresh.valuation.dirty = [] := by rw [refresh_frame]
    refine .inr ?_
    dsimp only
    split
    · rw [(kept_findPropagation s.refresh).valuation, hclean]
    · exact hclean

theorem InRange.within_reached (h : p.InRange) (c : Call) :
    (p.reached c).marks.Within p.topology.operations.size p.topology.sums.size := by
  unfold reached
  cases hs : p.refreshes? c with
  | none => exact h.marks
  | some s =>
    obtain ⟨-, htopology, -, hmarks, -⟩ := refreshes?_frame hs
    have hrefreshed := within_refresh (p := s) (htopology ▸ h.ranged)
      (htopology ▸ hmarks ▸ h.marks)
    rw [htopology] at hrefreshed
    dsimp only
    split
    · exact within_findPropagation hrefreshed
    · exact hrefreshed

/-- A call leaves all in range. -/
theorem InRange.answer [Coin ρ] (h : p.InRange) {c : Call} {a : Answer}
    (ha : p.answer c = .ok (a, q)) : q.InRange := by
  obtain ⟨l, isFixed, rfl, rfl⟩ | hshows := answer_cases ha
  · exact h.assign l isFixed
  · have htopology := (answer_frame ha).2
    have hdirty : q.valuation.dirty = p.valuation.dirty ∨ q.valuation.dirty = [] :=
      hshows.valuation ▸ p.dirty_reached c
    constructor <;> rw [htopology]
    · exact h.bounded
    · exact h.ranged
    · exact fun hnone => h.trail_of_answer hnone ha
    · exact fun hnone => hdirty.elim (·.trans (h.clean hnone)) id
    · rcases hdirty with hsame | hclean
      · exact hsame ▸ h.dirty
      · exact hclean ▸ nofun
    · exact hshows.marks ▸ h.within_reached c

theorem InRange.serveAll? [Coin ρ] (h : p.InRange) {requests : List Request}
    (hq : p.serveAll? requests = some q) : q.InRange := by
  induction requests generalizing p with
  | nil => exact Option.some.inj hq ▸ h
  | cons r requests ih =>
    unfold Propagator.serveAll? at hq
    split at hq
    · next p' hp =>
      refine ih ?_ hq
      cases r with
      | entry name value =>
        dsimp only [serve?] at hp
        split at hp
        · next hc => exact Option.some.inj hp ▸ h.configure hc
        · cases hp
      | rules lines =>
        obtain rfl := Option.some.inj hp
        exact { h with }
      | call c =>
        dsimp only [serve?] at hp
        split at hp
        · next ha => exact Option.some.inj hp ▸ h.answer ha
        · cases hp
    · cases hq

end Propagator

end ShaDiff
