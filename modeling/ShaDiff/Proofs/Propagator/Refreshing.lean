import ShaDiff.Proofs.Propagator.Attentive

/-!
# Calls that refresh

A call comes to one refresh at most, of a propagator that differs from the one that is called
in values at most (`refreshes?`). What is valued, dirty and marked and what is known of each bit
after a call is what the refresh and, if the host asks for a literal to propagate, the search
have made of it. All other calls leave that as it is, but for the atom of a literal they notify.
-/

namespace ShaDiff.Propagator

variable {ρ : Type} {p q r s : Propagator ρ} {c : Call} {a : Answer} {l : Literal}

/-- What a call refreshes, if it comes to a refresh. A backtrack always does. A question does
only if nothing else is pending, and one for a clause does so every so many times. -/
def refreshes? (p : Propagator ρ) : Call → Option (Propagator ρ)
  | .backtrack level =>
    some { p with
      trail := (p.trail.popTo level).2
      valuation := (p.trail.popTo level).1.foldl
        (fun v l => (v.unassign p.topology.tracked l.atom).2) p.valuation }
  | .decide => if p.isBuilt && p.config.branching && p.status == .idle then some p else none
  | .propagate =>
    if p.isBuilt then
      match p.status with
      | .propagating batch =>
        match p.giveBatch batch with
        | (none, p) => some p
        | _ => none
      | .idle => some p
      | _ => none
    else none
  | .hasClause =>
    if p.isBuilt && p.status == .idle &&
        (p.queries + 1) % max p.config.twoBitInterval 1 == 0 then
      some { p with queries := p.queries + 1 }
    else none
  | _ => none

def reached (p : Propagator ρ) (c : Call) : Propagator ρ :=
  match p.refreshes? c with
  | none => p
  | some s => if c = .propagate then s.refresh.findPropagation.2 else s.refresh

/-- Whether values and dirty bits, conditions and marks are the same, and as many columns were
propagated. -/
structure Shows (p q : Propagator ρ) : Prop where
  valuation : q.valuation = p.valuation
  characteristic : q.characteristic = p.characteristic
  marks : q.marks = p.marks
  columns : q.counters.columns = p.counters.columns

theorem Shows.refl (p : Propagator ρ) : p.Shows p := ⟨rfl, rfl, rfl, rfl⟩

theorem Shows.trans (h : p.Shows q) (h' : q.Shows r) : p.Shows r where
  valuation := h'.valuation.trans h.valuation
  characteristic := h'.characteristic.trans h.characteristic
  marks := h'.marks.trans h.marks
  columns := h'.columns.trans h.columns

theorem shows_giveBatch (p : Propagator ρ) (ls : List Literal) : p.Shows (p.giveBatch ls).2 := by
  unfold giveBatch
  split <;> exact ⟨rfl, rfl, rfl, rfl⟩

theorem refreshes?_propagate (h : p.refreshes? .propagate = some s) :
    p.isBuilt = true ∧ (s = p ∨ ∃ batch, s = (p.giveBatch batch).2) := by
  simp only [refreshes?] at h
  split at h
  · next hb =>
    refine ⟨hb, ?_⟩
    split at h
    · next batch _ =>
      split at h
      · next q hq => exact .inr ⟨batch, by rw [hq, ← Option.some.inj h]⟩
      · cases h
    · exact .inl (Option.some.inj h).symm
    · cases h
  · cases h

/-- A refresh starts from what is known and marked, and from all values but such that a
backtrack takes back. -/
theorem refreshes?_frame (h : p.refreshes? c = some s) :
    s.config = p.config ∧ s.topology = p.topology ∧ s.characteristic = p.characteristic ∧
      s.marks = p.marks ∧ s.counters.columns = p.counters.columns ∧
      ∃ ls : List Literal, s.valuation =
        ls.foldl (fun v l => (v.unassign p.topology.tracked l.atom).2) p.valuation := by
  cases c with
  | backtrack level =>
    obtain rfl := Option.some.inj h
    exact ⟨rfl, rfl, rfl, rfl, rfl, _, rfl⟩
  | decide =>
    simp only [refreshes?] at h
    split at h
    · obtain rfl := Option.some.inj h
      exact ⟨rfl, rfl, rfl, rfl, rfl, [], rfl⟩
    · cases h
  | propagate =>
    obtain ⟨-, rfl | ⟨batch, rfl⟩⟩ := refreshes?_propagate h
    · exact ⟨rfl, rfl, rfl, rfl, rfl, [], rfl⟩
    · have hasked := asked_giveBatch p batch
      have hgiven := shows_giveBatch p batch
      exact ⟨hasked.config, hasked.topology, hgiven.characteristic, hgiven.marks, hgiven.columns,
        [], hgiven.valuation⟩
  | hasClause =>
    simp only [refreshes?] at h
    split at h
    · obtain rfl := Option.some.inj h
      exact ⟨rfl, rfl, rfl, rfl, rfl, [], rfl⟩
    · cases h
  | _ => cases h

theorem reached_frame (p : Propagator ρ) (c : Call) :
    (p.reached c).config = p.config ∧ (p.reached c).topology = p.topology := by
  unfold reached
  cases hs : p.refreshes? c with
  | none => exact ⟨rfl, rfl⟩
  | some s =>
    obtain ⟨hconfig, htopology, -⟩ := refreshes?_frame hs
    have hrefreshed := s.asked_refresh
    have hkept := kept_findPropagation s.refresh
    dsimp only
    split
    · exact ⟨hkept.config.trans (hrefreshed.config.trans hconfig),
        hkept.topology.trans (hrefreshed.topology.trans htopology)⟩
    · exact ⟨hrefreshed.config.trans hconfig, hrefreshed.topology.trans htopology⟩

-- ---------------------------------------------------------------------------
-- One call after the other
-- ---------------------------------------------------------------------------

theorem shows_backtrack (p : Propagator ρ) (level : Nat) :
    (p.reached (.backtrack level)).Shows (p.backtrack level) := ⟨rfl, rfl, rfl, rfl⟩

theorem shows_decide [Coin ρ] (p : Propagator ρ) : (p.reached .decide).Shows p.decide.2 := by
  have hframe := findDecision_frame p.refresh
  unfold Propagator.decide
  split
  · next hguard =>
    have hreached : p.reached .decide = p.refresh := by simp [reached, refreshes?, hguard]
    rw [hreached]
    split
    · next q hq =>
      rw [hq] at hframe
      rw [show q = _ from hframe]
      exact ⟨rfl, rfl, rfl, rfl⟩
    · next l q hq =>
      rw [hq] at hframe
      rw [show q = _ from hframe]
      exact ⟨rfl, rfl, rfl, rfl⟩
  · next hguard =>
    have hreached : p.reached .decide = p := by simp [reached, refreshes?, hguard]
    rw [hreached]
    exact .refl p

theorem shows_findBatch (p : Propagator ρ) : p.refresh.findPropagation.2.Shows p.findBatch.2 := by
  unfold findBatch
  split
  · next q hq =>
    rw [hq]
    exact .refl q
  · next c q hq =>
    rw [hq]
    exact ⟨rfl, rfl, rfl, rfl⟩
  · next ls q hq =>
    rw [hq]
    have hremembered (reasons : Std.TreeMap Literal Clause) : q.Shows { q with reasons } :=
      ⟨rfl, rfl, rfl, rfl⟩
    exact (hremembered _).trans (shows_giveBatch _ _)

theorem shows_propagate (p : Propagator ρ) : (p.reached .propagate).Shows p.propagate.2 := by
  have hreached (s? : Option (Propagator ρ)) (hs : p.refreshes? .propagate = s?) :
      p.reached .propagate = s?.elim p fun s => s.refresh.findPropagation.2 := by
    subst hs
    unfold reached
    cases p.refreshes? .propagate <;> rfl
  unfold propagate
  split
  · next hb =>
    split
    · next batch hstatus =>
      have hgiven := shows_giveBatch p batch
      split
      · next q hq =>
        rw [hreached (some q) (by simp [refreshes?, hb, hstatus, hq])]
        exact shows_findBatch q
      · rw [hreached none]
        · exact hgiven
        · simp only [refreshes?, hb, hstatus, if_true]
    · next hstatus =>
      rw [hreached (some p) (by simp [refreshes?, hb, hstatus])]
      exact shows_findBatch p
    · next hpropagating hidle =>
      rw [hreached none]
      · exact .refl p
      · simp only [refreshes?, hb, if_true]
  · next hb =>
    rw [hreached none (by simp [refreshes?, hb])]
    exact .refl p

theorem shows_reason {given : Option Literal} (h : p.reason l = .ok (given, q)) : p.Shows q := by
  have hgiven (p : Propagator ρ) (s : ReasonStream) : p.Shows (p.giveReason s).2 := by
    unfold giveReason
    split <;> exact ⟨rfl, rfl, rfl, rfl⟩
  unfold reason at h
  split at h
  · next s _ =>
    have hq := hgiven p s
    rwa [Except.ok.inj h] at hq
  · split at h
    · cases h
    · next c _ =>
      have hcounted : p.Shows { p with counters.reasons := p.counters.reasons + 1 } :=
        ⟨rfl, rfl, rfl, rfl⟩
      have hq := hcounted.trans (hgiven _ ⟨l, c, 0⟩)
      rwa [Except.ok.inj h] at hq

theorem shows_checkTwoBit (p : Propagator ρ) : p.Shows p.checkTwoBit.2 := by
  unfold checkTwoBit
  split
  · exact .refl p
  · dsimp only
    split <;> exact ⟨rfl, rfl, rfl, rfl⟩

theorem shows_hasClause (p : Propagator ρ) : (p.reached .hasClause).Shows p.hasClause.2 := by
  have hshows := shows_checkTwoBit { p with queries := p.queries + 1 }.refresh
  unfold hasClause
  split
  · next hstatus =>
    have hreached : p.reached .hasClause = p := by simp [reached, refreshes?, hstatus]
    rw [hreached]
    exact .refl p
  · next hstatus =>
    split
    · next hb =>
      dsimp only
      split
      · next hturn =>
        have hreached : p.reached .hasClause = p := by simp [reached, refreshes?, hturn]
        rw [hreached]
        exact ⟨rfl, rfl, rfl, rfl⟩
      · next hturn =>
        have hreached : p.reached .hasClause = { p with queries := p.queries + 1 }.refresh := by
          simp [reached, refreshes?, hb, hstatus, Classical.not_not.mp hturn]
        rw [hreached]
        split
        · next clause q hq =>
          rw [hq] at hshows
          exact hshows.trans ⟨rfl, rfl, rfl, rfl⟩
        · next q hq =>
          rw [hq] at hshows
          exact hshows
    · next hb =>
      have hreached : p.reached .hasClause = p := by simp [reached, refreshes?, hb]
      rw [hreached]
      exact .refl p
  · next hidle =>
    have hreached : p.reached .hasClause = p := by
      have hne : p.status ≠ .idle := hidle
      simp [reached, refreshes?, hne]
    rw [hreached]
    exact .refl p

theorem shows_clause (p : Propagator ρ) : p.Shows p.clause.2 := by
  unfold clause
  split
  · split <;> exact ⟨rfl, rfl, rfl, rfl⟩
  · exact .refl p

/-- A call notifies a literal, or shows what it has come to by refreshing and searching. -/
theorem answer_cases [Coin ρ] (h : p.answer c = .ok (a, q)) :
    (∃ l isFixed, c = .assign l isFixed ∧ q = p.assign l isFixed) ∨ (p.reached c).Shows q := by
  cases c with
  | assign l isFixed =>
    obtain ⟨-, rfl⟩ := Prod.mk.inj (Except.ok.inj h)
    exact .inl ⟨l, isFixed, rfl, rfl⟩
  | openLevel =>
    obtain ⟨-, rfl⟩ := Prod.mk.inj (Except.ok.inj h)
    rw [openLevel_frame]
    exact .inr ⟨rfl, rfl, rfl, rfl⟩
  | backtrack level =>
    obtain ⟨-, rfl⟩ := Prod.mk.inj (Except.ok.inj h)
    exact .inr (shows_backtrack p level)
  | model ls =>
    obtain ⟨-, rfl⟩ := Prod.mk.inj (Except.ok.inj h)
    exact .inr (.refl p)
  | decide =>
    obtain ⟨-, rfl⟩ := Prod.mk.inj (Except.ok.inj h)
    exact .inr (shows_decide p)
  | propagate =>
    obtain ⟨-, rfl⟩ := Prod.mk.inj (Except.ok.inj h)
    exact .inr (shows_propagate p)
  | reason l =>
    obtain ⟨given, hr, -⟩ := reason_of_answer h
    exact .inr (shows_reason hr)
  | hasClause =>
    obtain ⟨-, rfl⟩ := Prod.mk.inj (Except.ok.inj h)
    exact .inr (shows_hasClause p)
  | clause =>
    obtain ⟨-, rfl⟩ := Prod.mk.inj (Except.ok.inj h)
    exact .inr (shows_clause p)

theorem answer_frame [Coin ρ] (h : p.answer c = .ok (a, q)) :
    q.config = p.config ∧ q.topology = p.topology := by
  cases hc : c.isQuestion with
  | true => exact ⟨(asked_answer hc h).config, (asked_answer hc h).topology⟩
  | false =>
    cases c with
    | assign l isFixed =>
      obtain ⟨-, rfl⟩ := Prod.mk.inj (Except.ok.inj h)
      exact ⟨by rw [assign_frame], topology_assign p l isFixed⟩
    | openLevel =>
      obtain ⟨-, rfl⟩ := Prod.mk.inj (Except.ok.inj h)
      rw [openLevel_frame]
      exact ⟨rfl, rfl⟩
    | backtrack level =>
      obtain ⟨-, rfl⟩ := Prod.mk.inj (Except.ok.inj h)
      exact ⟨(returned_backtrack p level).config, (returned_backtrack p level).topology⟩
    | _ => cases hc

-- ---------------------------------------------------------------------------
-- Dialogues
-- ---------------------------------------------------------------------------

theorem exists_of_converse_cons [Coin ρ] {calls : List Call} {answers : List Answer}
    (h : p.converse (c :: calls) = .ok (answers, r)) :
    ∃ a q later, p.answer c = .ok (a, q) ∧ q.converse calls = .ok (later, r) ∧
      answers = a :: later := by
  simp only [converse, bind, Except.bind, pure, Except.pure] at h
  split at h
  · cases h
  · next answered hc =>
    split at h
    · cases h
    · next conversed hlater =>
      obtain ⟨rfl, rfl⟩ := Prod.mk.inj (Except.ok.inj h)
      exact ⟨_, _, _, hc, hlater, rfl⟩

theorem converse_induction [Coin ρ] {P : Propagator ρ → Prop}
    (hstep : ∀ {p q c a}, P p → p.answer c = .ok (a, q) → P q) (hp : P p) {calls : List Call}
    {answers : List Answer} (h : p.converse calls = .ok (answers, q)) : P q := by
  induction calls generalizing p answers with
  | nil =>
    obtain ⟨-, rfl⟩ := Prod.mk.inj (Except.ok.inj h)
    exact hp
  | cons c calls ih =>
    obtain ⟨a, r, later, hc, hlater, -⟩ := exists_of_converse_cons h
    exact ih (hstep hp hc) hlater

end ShaDiff.Propagator
