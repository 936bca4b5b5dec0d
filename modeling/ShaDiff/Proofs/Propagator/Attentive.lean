import ShaDiff.Proofs.Propagator.Search

/-!
# News reaches the host

A propagator is attentive if conditions are no stronger than the values allow for, each
refinement is seen by all readers, and no mark is lost. Calls keep it so. What is underway
then stays underway: an answer to the host is a literal, beside which the rest of the batch
is left to be given (`Left`), or a clause is pending, or all has come to a fixpoint.
-/

namespace ShaDiff.Propagator

variable {ρ : Type} {p q : Propagator ρ} {l : Literal} {ls : List Literal}

-- ---------------------------------------------------------------------------
-- Equal values
-- ---------------------------------------------------------------------------

theorem reflects_backtrack (ht : p.topology.Tracks)
    (h : p.topology.Mirrors p.valuation p.characteristic) (level : Nat) :
    (p.backtrack level).topology.Reflects (p.backtrack level).valuation
      (p.backtrack level).characteristic := by
  have hreturned := returned_backtrack p level
  exact reflects_of_clean (hreturned.topology ▸ hreturned.mirrors ht h) hreturned.dirty

theorem Fixpoint.of_values (h : p.Fixpoint) (hconfig : q.config = p.config)
    (htopology : q.topology = p.topology)
    (hp : p.topology.Reflects p.valuation p.characteristic)
    (hq : q.topology.Reflects q.valuation q.characteristic)
    (hvalue : ∀ a, q.value? a = p.value? a) : q.Fixpoint := by
  have hcondition := condition_of_values htopology hp hq hvalue
  have hvalues : p.Extends q := fun a v hv => (hvalue a).trans hv
  constructor
  · intro o ho j hj
    rw [htopology] at ho hj
    exact (h.column o ho j hj).mono htopology (fun b _ => hcondition b) hvalues nofun
  · intro hwordwise s hs
    rw [htopology] at hs
    exact (h.sum (hconfig ▸ hwordwise) s hs).mono htopology (fun b _ => hcondition b) hvalues

theorem tracked_of_literal? (ht : p.topology.Tracks) {r : Encoding.Region} {b : Bit}
    (hl : r.literal? (p.topology.slots b) = some l) :
    p.topology.tracked.contains l.atom = true := by
  obtain ⟨a, ha, rfl⟩ := Option.map_eq_some_iff.mp hl
  rw [Std.TreeMap.contains_iff_mem, Std.TreeMap.mem_iff_isSome_getElem?, ht b r.slot a ha]
  rfl

theorem Underway.of_tracked (h : p.Underway ls) (ht : p.topology.Tracks) :
    p.Underway (ls.filter fun l => p.topology.tracked.contains l.atom) where
  column u o ho hu := by
    rcases h.column u o ho hu with hm | ⟨outcome, houtcome, hall⟩
    · exact .inl hm
    · refine .inr ⟨outcome, houtcome, fun l hl => List.mem_filter.mpr ⟨hall l hl, ?_⟩⟩
      obtain ⟨b, c, hforced, -⟩ := exists_of_mem_columnLiterals hl
      have hforced := mem_forced hforced
      unfold Encoding.forced at hforced
      split at hforced
      · cases hforced
      · obtain ⟨r, -, hr⟩ := List.mem_filterMap.mp hforced
        exact tracked_of_literal? ht hr
  sum hwordwise i s hs := by
    rcases h.sum hwordwise i s hs with hm | hsettled | ⟨b, hb, r, hr, l, hl, hsplits, hlater⟩
    · exact .inl hm
    · exact .inr (.inl hsettled)
    · refine .inr (.inr ⟨b, hb, r, hr, l, hl, hsplits, hlater.imp_left fun hmem => ?_⟩)
      exact List.mem_filter.mpr ⟨hmem, tracked_of_literal? ht hl⟩

-- ---------------------------------------------------------------------------
-- Attention
-- ---------------------------------------------------------------------------

/-- Whether each refinement of a condition will be seen by all who read the bit. -/
structure Attentive (p : Propagator ρ) : Prop where
  sound : p.Sound False
  justified : p.Justified
  indexed : p.topology.Indexed
  queued : p.marks.Queued
  relaxed : p.Relaxed
  fixed : ∀ a, p.valuation.fixed.contains a = true → p.value? a ≠ none

theorem Attentive.of_asked (h : p.Attentive) (hq : p.Asked q) (hsound : q.Sound False)
    (hjustified : q.Justified) (hqueued : q.marks.Queued) (hrelaxed : q.Relaxed) :
    q.Attentive where
  sound := hsound
  justified := hjustified
  indexed := hq.topology ▸ h.indexed
  queued := hqueued
  relaxed := hrelaxed
  fixed a ha := by
    rw [hq.value?]
    exact h.fixed a (hq.fixed ▸ ha)

theorem Relaxed.of_eq (h : p.Relaxed) (htopology : q.topology = p.topology)
    (hcharacteristic : q.characteristic = p.characteristic) (hvalues : p.Extends q) :
    q.Relaxed := by
  intro b hb
  rw [condition, hcharacteristic]
  refine Condition.subset_iff.mpr fun x hx => Condition.subset_iff.mp (h b hb) x ?_
  rw [freshCondition, encoding, htopology] at hx
  refine Encoding.allows_refresh.mpr fun r hr hholds => Encoding.allows_refresh.mp hx r hr ?_
  rw [Encoding.Region.holds, join_values, beq_iff_eq] at hholds ⊢
  obtain ⟨a, ha, hv⟩ := Option.bind_eq_some_iff.mp hholds
  rw [ha]
  exact hvalues a _ hv

theorem Attentive.refresh (h : p.Attentive) : p.refresh.Attentive :=
  h.of_asked p.asked_refresh h.sound.refresh h.justified.refresh
    (queued_refresh h.queued)
    (relaxed_of_reflects (reflects_refresh h.sound.mirrors))

theorem Attentive.ready (h : p.Attentive) (hb : p.isBuilt = true) : p.refresh.Ready False :=
  h.sound.ready_refresh (Option.isSome_iff_ne_none.mp hb)

-- ---------------------------------------------------------------------------
-- Notices
-- ---------------------------------------------------------------------------

theorem extends_assign {isFixed : Bool} (hl : p.allows (.call (.assign l isFixed)) = true) :
    p.Extends (p.assign l isFixed) := by
  intro a v hv
  cases hb : p.isBuilt && p.topology.tracked.contains l.atom with
  | false => simpa [Propagator.assign, hb] using hv
  | true =>
    obtain ⟨hb, ht⟩ := Bool.and_eq_true_iff.mp hb
    rw [value?_assign hb ht]
    split
    · next heq =>
      subst heq
      rw [(polarity_of_allows hl hv).2]
    · exact hv

theorem assign_frame (p : Propagator ρ) (l : Literal) (isFixed : Bool) : p.assign l isFixed =
    { p with
      valuation := (p.assign l isFixed).valuation
      trail := (p.assign l isFixed).trail
      counters := (p.assign l isFixed).counters } := by
  unfold Propagator.assign
  split <;> rfl

theorem Attentive.assign (h : p.Attentive) {isFixed : Bool}
    (hl : p.allows (.call (.assign l isFixed)) = true) : (p.assign l isFixed).Attentive where
  sound := h.sound.assign l isFixed
  justified := h.justified.assign hl
  indexed := by
    rw [topology_assign]
    exact h.indexed
  queued := by
    rw [assign_frame]
    exact h.queued
  relaxed := h.relaxed.of_eq (topology_assign p l isFixed) (by rw [assign_frame])
    (extends_assign hl)
  fixed a ha hnone := by
    have hvalued : p.value? a = none → False := fun hp => by
      cases hb : p.isBuilt && p.topology.tracked.contains l.atom with
      | false =>
        simp only [Propagator.assign, hb, Bool.false_eq_true, if_false] at ha
        exact h.fixed a ha hp
      | true =>
        obtain ⟨hb, ht⟩ := Bool.and_eq_true_iff.mp hb
        rw [value?_assign hb ht] at hnone
        rw [fixed_assign hb ht] at ha
        split at hnone
        · cases hnone
        · next hne =>
          split at ha
          · simp only [Std.TreeSet.contains_insert, Bool.or_eq_true, beq_iff_eq,
              Std.LawfulEqCmp.compare_eq_iff_eq] at ha
            exact h.fixed a (ha.resolve_left hne) hp
          · exact h.fixed a ha hp
    cases hp : p.value? a with
    | none => exact hvalued hp
    | some v => cases (extends_assign hl a v hp).symm.trans hnone

/-- A literal that is notified at a level has no value below it. -/
theorem value?_backtrack_assign (h : p.Attentive) (hb : p.isBuilt = true)
    (ht : p.topology.tracked.contains l.atom = true)
    (hl : p.allows (.call (.assign l false)) = true) {level : Nat}
    (hlevel : level < p.trail.level) (a : Atom) :
    ((p.assign l false).backtrack level).value? a = (p.backtrack level).value? a := by
  have hnone : p.value? l.atom = none := by simpa [Propagator.allows] using hl
  have hfree : p.valuation.fixed.contains l.atom = false :=
    Bool.eq_false_iff.mpr fun hfixed => h.fixed _ hfixed hnone
  rw [(returned_backtrack _ level).value, (returned_backtrack _ level).value, topology_assign,
    trail_assign hb ht, fixed_assign hb ht, value?_assign hb ht]
  simp only [Bool.false_eq_true, if_false, Trail.fst_popTo_store hlevel, List.map_cons,
    List.mem_cons]
  by_cases ha : a = l.atom
  · subst ha
    simp [ht, hfree, hnone]
  · have ha' : l.atom ≠ a := fun heq => ha heq.symm
    simp only [ha, ha', false_or, if_false]

theorem value?_backtrack_backtrack (p : Propagator ρ) {level k : Nat} (hk : k ≤ level) (a : Atom) :
    ((p.backtrack level).backtrack k).value? a = (p.backtrack k).value? a := by
  have hreturned := returned_backtrack p level
  have hremoved : a ∈ (p.trail.popTo k).1.map (·.atom) ↔ a ∈ (p.trail.popTo level).1.map (·.atom) ∨
      a ∈ ((p.trail.popTo level).2.popTo k).1.map (·.atom) := by
    rw [← Trail.fst_popTo_popTo hk, List.map_append, List.mem_append]
  rw [(returned_backtrack (p.backtrack level) k).value, (returned_backtrack p k).value,
    hreturned.value, hreturned.topology, hreturned.fixed, hreturned.trail]
  simp only [hremoved]
  by_cases hhigh : a ∈ (p.trail.popTo level).1.map (·.atom)
  · simp only [hhigh, true_and, true_or]
    by_cases hspared : p.topology.tracked.contains a = true ∧ p.valuation.fixed.contains a = false
    · simp only [hspared, and_self, if_true, ite_self]
    · simp only [hspared, and_false, if_false]
  · simp only [hhigh, false_and, false_or, if_false]

theorem Underway.assign (h : p.Underway ls) (ht : p.topology.Tracks) (hb : p.isBuilt = true)
    {isFixed : Bool} (hl : p.allows (.call (.assign l isFixed)) = true) :
    (p.assign l isFixed).Underway (ls.filter fun k => k.atom != l.atom) := by
  have hframe := p.assign_frame l isFixed
  refine (h.of_tracked ht).mono (by rw [hframe]) (by rw [hframe]) (fun b => by rw [hframe]; rfl)
    (extends_assign hl) (fun _ hm => by rw [hframe]; exact hm)
    (fun _ hi => by rw [hframe]; exact hi) fun k hk => ?_
  obtain ⟨hk, htracked⟩ := List.mem_filter.mp hk
  by_cases heq : k.atom = l.atom
  · refine .inr (mt literal?_eq_none.mp ?_)
    rw [heq] at htracked ⊢
    rw [value?_assign hb htracked, if_pos rfl]
    nofun
  · exact .inl (List.mem_filter.mpr ⟨hk, bne_iff_ne.mpr heq⟩)

theorem Attentive.openLevel (h : p.Attentive) : p.openLevel.Attentive := by
  have hsound := h.sound.openLevel
  have hjustified := h.justified.openLevel
  rw [openLevel_frame] at hsound hjustified ⊢
  exact { h with sound := hsound, justified := hjustified }

theorem Attentive.backtrack (h : p.Attentive) (level : Nat) : (p.backtrack level).Attentive where
  sound := h.sound.backtrack level
  justified := h.justified.backtrack level
  indexed := (returned_backtrack p level).topology ▸ h.indexed
  queued := by
    unfold Propagator.backtrack
    exact queued_refresh (p := { p with trail := _, valuation := _ }) h.queued
  relaxed := relaxed_of_reflects (reflects_backtrack h.sound.tracks h.sound.mirrors level)
  fixed a ha := by
    have hreturned := returned_backtrack p level
    rw [hreturned.fixed] at ha
    rw [hreturned.value, if_neg fun hremoved => Bool.false_ne_true (hremoved.2.2.symm.trans ha)]
    exact h.fixed a ha

/-- A return to a level depends on the values that are left there alone. -/
theorem Fixpoint.returned {level level' : Nat} (h : (p.backtrack level).Fixpoint)
    (hp : p.Attentive) (hq : q.Attentive) (hconfig : q.config = p.config)
    (htopology : q.topology = p.topology)
    (hvalue : ∀ a, (q.backtrack level').value? a = (p.backtrack level).value? a) :
    (q.backtrack level').Fixpoint := by
  have hreturned := returned_backtrack p level
  have hreturned' := returned_backtrack q level'
  refine h.of_values ?_ ?_ (reflects_backtrack hp.sound.tracks hp.sound.mirrors level)
    (reflects_backtrack hq.sound.tracks hq.sound.mirrors level') hvalue
  · rw [hreturned.config, hreturned'.config, hconfig]
  · rw [hreturned.topology, hreturned'.topology, htopology]

theorem Fixpoint.refreshed (h : p.refresh.Fixpoint) (hp : p.Attentive) (hq : q.Attentive)
    (hconfig : q.config = p.config) (htopology : q.topology = p.topology)
    (hvalue : ∀ a, q.value? a = p.value? a) : q.refresh.Fixpoint := by
  refine h.of_values ?_ ?_ (reflects_refresh hp.sound.mirrors) (reflects_refresh hq.sound.mirrors)
    fun a => ?_
  · rw [q.asked_refresh.config, p.asked_refresh.config, hconfig]
  · rw [q.asked_refresh.topology, p.asked_refresh.topology, htopology]
  · rw [q.asked_refresh.value?, p.asked_refresh.value?, hvalue]

theorem Fixpoint.opened (h : p.refresh.Fixpoint) (hp : p.Attentive) :
    (p.openLevel.backtrack p.trail.level).Fixpoint := by
  have hopened := hp.openLevel
  have hreturned := returned_backtrack p.openLevel p.trail.level
  have hframe := p.openLevel_frame
  refine h.of_values ?_ ?_ (reflects_refresh hp.sound.mirrors)
    (reflects_backtrack hopened.sound.tracks hopened.sound.mirrors _) fun a => ?_
  · rw [hreturned.config, hframe, p.asked_refresh.config]
  · rw [hreturned.topology, hframe, p.asked_refresh.topology]
  · have htrail : p.openLevel.trail = p.trail.push := by rw [hframe]
    have hvalue : p.openLevel.value? a = p.value? a := by
      rw [hframe]
      rfl
    rw [hreturned.value, p.asked_refresh.value?, htrail, Trail.fst_popTo_push (Nat.le_refl _),
      hvalue]
    simp [Trail.popTo]

theorem status_openLevel (p : Propagator ρ) : p.openLevel.status = p.status ∨
    (∃ l, p.status = .deciding l) ∧ p.openLevel.status = .idle := by
  unfold Propagator.openLevel
  dsimp only
  split
  · next l heq => exact .inr ⟨⟨l, heq⟩, rfl⟩
  · exact .inl rfl

theorem Underway.openLevel (h : p.Underway ls) : p.openLevel.Underway ls := by
  rw [openLevel_frame]
  exact h.mono rfl rfl (fun _ => rfl) (fun _ _ hv => hv) (fun _ hm => hm) (fun _ hi => hi)
    fun _ hl => .inl hl

-- ---------------------------------------------------------------------------
-- Questions
-- ---------------------------------------------------------------------------

def pending (p : Propagator ρ) : List Literal :=
  match p.status with
  | .propagating batch => batch
  | _ => []

theorem pending_assign (p : Propagator ρ) (l : Literal) (isFixed : Bool) :
    (p.assign l isFixed).pending = p.pending := by
  rw [pending, pending, assign_frame]

theorem pending_openLevel (p : Propagator ρ) : p.openLevel.pending = p.pending := by
  rcases p.status_openLevel with hstatus | ⟨⟨l, hdeciding⟩, hidle⟩
  · rw [pending, pending, hstatus]
  · rw [pending, pending, hdeciding, hidle]

theorem Attentive.query (h : p.Attentive) (queries : Nat) :
    ({ p with queries } : Propagator ρ).Attentive :=
  { h with sound := h.sound.booked, justified := { h.justified with } }

/-- Whether a question changed no more than a refresh does. -/
structure Seen (p q : Propagator ρ) : Prop where
  pending : q.pending = p.pending
  shown : q.marks = p.marks ∧ q.characteristic = p.characteristic ∨
    p.pending = [] ∧ ∃ queries, q.marks = ({ p with queries } : Propagator ρ).refresh.marks ∧
      q.characteristic = ({ p with queries } : Propagator ρ).refresh.characteristic

theorem Seen.attentive (h : p.Seen q) (hp : p.Attentive) (hasked : p.Asked q)
    (hsound : q.Sound False) (hjustified : q.Justified) : q.Attentive := by
  rcases h.shown with ⟨hmarks, hcharacteristic⟩ | ⟨-, queries, hmarks, hcharacteristic⟩
  · exact hp.of_asked hasked hsound hjustified (hmarks ▸ hp.queued)
      (hp.relaxed.of_eq hasked.topology hcharacteristic hasked.extends)
  · have hrefreshed := asked_refresh { p with queries }
    refine hp.of_asked hasked hsound hjustified
      (hmarks ▸ queued_refresh (p := { p with queries }) hp.queued) ?_
    refine (hp.query queries).refresh.relaxed.of_eq ?_ hcharacteristic fun a v hv => ?_
    · rw [hasked.topology, hrefreshed.topology]
    · rw [hasked.value?]
      exact (hrefreshed.value? a).symm.trans hv

theorem Seen.underway (h : p.Seen q) (hp : p.Attentive) (hasked : p.Asked q)
    (hu : p.Underway p.pending) : q.Underway q.pending := by
  rw [h.pending]
  rcases h.shown with ⟨hmarks, hcharacteristic⟩ | ⟨hpending, queries, hmarks, hcharacteristic⟩
  · refine hu.mono hasked.config hasked.topology (fun b => ?_) hasked.extends
      (fun _ hm => hmarks ▸ hm) (fun _ hi => hmarks ▸ hi) fun _ hl => .inl hl
    rw [condition, condition, hcharacteristic]
  · have hrefreshed := asked_refresh { p with queries }
    have hquery : ({ p with queries } : Propagator ρ).Underway [] := by
      rw [hpending] at hu
      exact ⟨hu.column, hu.sum⟩
    rw [hpending]
    refine (hquery.refresh hp.indexed hp.sound.mirrors hp.relaxed).mono ?_ ?_ (fun b => ?_)
      (fun a v hv => ?_) (fun _ hm => hmarks ▸ hm) (fun _ hi => hmarks ▸ hi)
      (List.forall_mem_nil _)
    · rw [hasked.config, hrefreshed.config]
    · rw [hasked.topology, hrefreshed.topology]
    · rw [condition, condition, hcharacteristic]
    · rw [hasked.value?]
      exact (hrefreshed.value? a).symm.trans hv

theorem seen_decide [Coin ρ] (p : Propagator ρ) : p.Seen p.decide.2 := by
  have hframe := findDecision_frame p.refresh
  unfold Propagator.decide
  split
  · next hguard =>
    have hpending : p.pending = [] := by
      rw [pending, beq_iff_eq.mp (Bool.and_eq_true_iff.mp hguard).2]
    split
    · next q hq =>
      rw [hq] at hframe
      refine ⟨?_, .inr ⟨hpending, p.queries, by rw [hframe], by rw [hframe]⟩⟩
      rw [hframe, refresh_frame]
      rfl
    · next l q hq =>
      rw [hq] at hframe
      have hframe : q = { p.refresh with source := q.source } := hframe
      exact ⟨hpending.symm, .inr ⟨hpending, p.queries, by rw [hframe], by rw [hframe]⟩⟩
  · exact ⟨rfl, .inl ⟨rfl, rfl⟩⟩

theorem seen_hasClause (p : Propagator ρ) : p.Seen p.hasClause.2 := by
  have hframe := checkTwoBit_frame { p with queries := p.queries + 1 }.refresh
  unfold Propagator.hasClause
  split
  · exact ⟨rfl, .inl ⟨rfl, rfl⟩⟩
  · next hidle =>
    have hpending : p.pending = [] := by rw [pending, hidle]
    split
    · dsimp only
      split
      · exact ⟨rfl, .inl ⟨rfl, rfl⟩⟩
      · split
        · next c q hq =>
          rw [hq] at hframe
          have hframe : q = { { p with queries := p.queries + 1 }.refresh with
            counters := q.counters } := hframe
          exact ⟨hpending.symm, .inr ⟨hpending, _, by rw [hframe], by rw [hframe]⟩⟩
        · next q hq =>
          rw [hq] at hframe
          have hframe : q = { { p with queries := p.queries + 1 }.refresh with
            counters := q.counters } := hframe
          refine ⟨?_, .inr ⟨hpending, _, by rw [hframe], by rw [hframe]⟩⟩
          rw [hframe, refresh_frame]
          rfl
    · exact ⟨rfl, .inl ⟨rfl, rfl⟩⟩
  · exact ⟨rfl, .inl ⟨rfl, rfl⟩⟩

theorem seen_clause (p : Propagator ρ) : p.Seen p.clause.2 := by
  unfold Propagator.clause
  split
  · next c given hstatus =>
    have hpending : p.pending = [] := by rw [pending, hstatus]
    split <;> exact ⟨hpending.symm, .inl ⟨rfl, rfl⟩⟩
  · exact ⟨rfl, .inl ⟨rfl, rfl⟩⟩

theorem seen_giveReason (p : Propagator ρ) (s : ReasonStream) :
    (p.giveReason s).2.status = p.status ∧ (p.giveReason s).2.marks = p.marks ∧
      (p.giveReason s).2.characteristic = p.characteristic := by
  unfold giveReason
  split <;> exact ⟨rfl, rfl, rfl⟩

theorem seen_reason {given : Option Literal} (h : p.reason l = .ok (given, q)) :
    q.status = p.status ∧ q.marks = p.marks ∧ q.characteristic = p.characteristic := by
  unfold Propagator.reason at h
  split at h
  · next s _ =>
    have hq := seen_giveReason p s
    rwa [Except.ok.inj h] at hq
  · split at h
    · cases h
    · next c _ =>
      have hq := seen_giveReason { p with counters.reasons := p.counters.reasons + 1 } ⟨l, c, 0⟩
      rwa [Except.ok.inj h] at hq

theorem propagate_of_blocking {c : Clause} {given : Nat} (h : p.status = .blocking c given) :
    p.propagate = (none, p) := by
  simp [Propagator.propagate, h]

theorem blocking_answer [Coin ρ] {c : Call} {a : Answer} {clause : Clause} {given : Nat}
    (hstatus : p.status = .blocking clause given) (hc : c.isQuestion = true)
    (h : p.answer c = .ok (a, q)) : (∃ given, q.status = .blocking clause given) ∨
      c = .clause ∧ a = .literal none := by
  cases c with
  | assign | openLevel | backtrack => cases hc
  | model =>
    obtain ⟨-, rfl⟩ := Prod.mk.inj (Except.ok.inj h)
    exact .inl ⟨given, hstatus⟩
  | decide =>
    have hsame : p.decide = (none, p) := by simp [Propagator.decide, hstatus]
    simp only [answer, hsame, Except.ok.injEq, Prod.mk.injEq] at h
    obtain ⟨-, rfl⟩ := h
    exact .inl ⟨given, hstatus⟩
  | propagate =>
    simp only [answer, propagate_of_blocking hstatus, Except.ok.injEq, Prod.mk.injEq] at h
    obtain ⟨-, rfl⟩ := h
    exact .inl ⟨given, hstatus⟩
  | reason l =>
    obtain ⟨_, hr, -⟩ := reason_of_answer h
    exact .inl ⟨given, (seen_reason hr).1.trans hstatus⟩
  | hasClause =>
    have hsame : p.hasClause = (true, p) := by simp [Propagator.hasClause, hstatus]
    simp only [answer, hsame, Except.ok.injEq, Prod.mk.injEq] at h
    obtain ⟨-, rfl⟩ := h
    exact .inl ⟨given, hstatus⟩
  | clause =>
    cases hl : clause[given]? with
    | none =>
      have hsame : p.clause = (none, { p with status := .idle }) := by
        simp [Propagator.clause, hstatus, hl]
      simp only [answer, hsame, Except.ok.injEq, Prod.mk.injEq] at h
      exact .inr ⟨rfl, h.1.symm⟩
    | some l =>
      have hsame : p.clause = (some l, { p with status := .blocking clause (given + 1) }) := by
        simp [Propagator.clause, hstatus, hl]
      simp only [answer, hsame, Except.ok.injEq, Prod.mk.injEq] at h
      obtain ⟨-, rfl⟩ := h
      exact .inl ⟨given + 1, rfl⟩

/-- Only a question for propagation takes marks and gives what is pending. -/
theorem seen_answer [Coin ρ] {c : Call} {a : Answer} (hc : c.isQuestion = true)
    (hne : c ≠ .propagate) (h : p.answer c = .ok (a, q)) : p.Seen q := by
  cases c with
  | assign | openLevel | backtrack => cases hc
  | propagate => exact (hne rfl).elim
  | model =>
    obtain ⟨-, rfl⟩ := Prod.mk.inj (Except.ok.inj h)
    exact ⟨rfl, .inl ⟨rfl, rfl⟩⟩
  | decide =>
    obtain ⟨-, rfl⟩ := Prod.mk.inj (Except.ok.inj h)
    exact seen_decide p
  | reason l =>
    obtain ⟨_, hr, -⟩ := reason_of_answer h
    obtain ⟨hstatus, hshown⟩ := seen_reason hr
    exact ⟨by rw [pending, pending, hstatus], .inl hshown⟩
  | hasClause =>
    obtain ⟨-, rfl⟩ := Prod.mk.inj (Except.ok.inj h)
    exact seen_hasClause p
  | clause =>
    obtain ⟨-, rfl⟩ := Prod.mk.inj (Except.ok.inj h)
    exact seen_clause p

-- ---------------------------------------------------------------------------
-- Propagating
-- ---------------------------------------------------------------------------

def Left (p : Propagator ρ) : Option Literal → Prop
  | some l => p.Underway (l :: p.pending)
  | none => (∃ c given, p.status = .blocking c given) ∨ p.Underway p.pending ∧
    (p.status = .idle → p.Fixpoint ∧ p.topology.Reflects p.valuation p.characteristic)

theorem Underway.of_status (h : p.Underway ls) (status : Status) (counters : Counters)
    (reasons : Std.TreeMap Literal Clause) : { p with status, counters, reasons }.Underway ls :=
  h.mono rfl rfl (fun _ => rfl) (fun _ _ hv => hv) (fun _ hu => hu) (fun _ hi => hi)
    fun _ hl => .inl hl

theorem mem_dropWhile_or {α : Type} {f : α → Bool} {xs : List α} {x : α} (h : x ∈ xs) :
    x ∈ xs.dropWhile f ∨ f x = true := by
  induction xs with
  | nil => cases h
  | cons y xs ih =>
    rw [List.dropWhile_cons]
    split
    · next hy =>
      rcases List.mem_cons.mp h with rfl | h
      · exact .inr hy
      · exact ih h
    · exact .inl h

/-- Literals of a batch are given, or true. -/
theorem Underway.giveBatch (h : p.Underway ls) :
    match p.giveBatch ls with
    | (some l, q) => q.Underway (l :: q.pending)
    | (none, q) => q.status = .idle ∧ q.Underway [] := by
  have hleft : p.Underway (ls.dropWhile fun l => p.literal? l == some true) :=
    h.mono rfl rfl (fun _ => rfl) (fun _ _ hv => hv) (fun _ hu => hu) (fun _ hi => hi)
      fun l hl => (mem_dropWhile_or hl).imp_right fun htrue => by simp_all
  unfold Propagator.giveBatch
  cases hdrop : ls.dropWhile fun l => p.literal? l == some true with
  | nil =>
    rw [hdrop] at hleft
    exact ⟨rfl, hleft.of_status .idle p.counters p.reasons⟩
  | cons l rest =>
    rw [hdrop] at hleft
    exact hleft.of_status (.propagating rest) _ p.reasons

theorem marks_giveBatch (p : Propagator ρ) (ls : List Literal) :
    (p.giveBatch ls).2.marks = p.marks ∧ (p.giveBatch ls).2.characteristic = p.characteristic := by
  unfold Propagator.giveBatch
  split <;> exact ⟨rfl, rfl⟩

theorem giveBatch_of_none (hl : p.literal? l = none) (rest : List Literal) :
    p.giveBatch (l :: rest) = (some l, { p with
      status := .propagating rest
      counters.propagations := p.counters.propagations + 1 }) := by
  simp [Propagator.giveBatch, hl]

theorem left_findBatch (h : p.Attentive) (hb : p.isBuilt = true) (hidle : p.status = .idle)
    (hu : p.Underway []) : p.findBatch.2.Left p.findBatch.1 ∧ p.findBatch.2.marks.Queued ∧
      p.findBatch.2.topology.Reflects p.findBatch.2.valuation p.findBatch.2.characteristic := by
  have hready := h.ready hb
  have hsearched := hready.searched h.refresh.queued
    (hu.refresh h.indexed h.sound.mirrors h.relaxed)
  have hfits := fits_findPropagation p.refresh
  have hkept := kept_findPropagation p.refresh
  have hreflects : p.refresh.findPropagation.2.topology.Reflects
      p.refresh.findPropagation.2.valuation p.refresh.findPropagation.2.characteristic := by
    rw [hkept.topology, hkept.valuation, hkept.characteristic]
    exact hready.reflects
  have hstatus : p.refresh.findPropagation.2.status = .idle := by
    rw [hkept.status, refresh_frame]
    exact hidle
  unfold findBatch
  split
  · next q hfound =>
    rw [hfound] at hsearched hreflects hstatus
    have hpending : q.pending = [] := by rw [pending, hstatus]
    refine ⟨.inr ⟨?_, fun _ => ⟨hsearched.fixpoint rfl, hreflects⟩⟩, hsearched.queued, hreflects⟩
    rw [hpending]
    exact hsearched.leaves
  · next c q hfound =>
    rw [hfound] at hsearched hreflects
    exact ⟨.inl ⟨c, 0, rfl⟩, hsearched.queued, hreflects⟩
  · next found q hfound =>
    rw [hfound] at hsearched hreflects hfits hkept
    obtain ⟨hne, hleaves⟩ := hsearched.leaves
    cases found with
    | nil => exact absurd rfl hne
    | cons x found =>
      -- What was found has no value, so the first literal is given.
      have hnone : q.literal? x.1 = none := by
        rw [literal?, hkept.valuation]
        exact (hfits x.1 x.2 (.head _)).1
      have hopen (reasons : Std.TreeMap Literal Clause) :
          ({ q with reasons } : Propagator ρ).literal? x.1 = none := hnone
      rw [List.map_cons, giveBatch_of_none (hopen _)]
      exact ⟨hleaves.of_status (.propagating _) _ _, hsearched.queued, hreflects⟩

/-- What the host is answered on propagation is all that is found, or is left to be given. -/
theorem Attentive.left_propagate (h : p.Attentive) (hb : p.isBuilt = true)
    (hu : p.Underway p.pending) : p.propagate.2.Left p.propagate.1 ∧
      p.propagate.2.marks.Queued ∧ p.propagate.2.Relaxed := by
  have hsearch (q : Propagator ρ) (hq : q.Attentive) (hbuilt : q.isBuilt = true)
      (hidle : q.status = .idle) (hunderway : q.Underway []) : q.findBatch.2.Left q.findBatch.1 ∧
        q.findBatch.2.marks.Queued ∧ q.findBatch.2.Relaxed := by
    obtain ⟨hleft, hqueued, hreflects⟩ := left_findBatch hq hbuilt hidle hunderway
    exact ⟨hleft, hqueued, relaxed_of_reflects hreflects⟩
  unfold Propagator.propagate
  rw [if_pos hb]
  split
  · next batch hstatus =>
    rw [pending, hstatus] at hu
    have hgiven := hu.giveBatch
    have hasked := asked_giveBatch p batch
    have hsound := h.sound.giveBatch (Option.isSome_iff_ne_none.mp hb) batch
    have hjustified := h.justified.giveBatch batch
    obtain ⟨hmarks, hcharacteristic⟩ := marks_giveBatch p batch
    have hqueued : (p.giveBatch batch).2.marks.Queued := hmarks ▸ h.queued
    have hrelaxed : (p.giveBatch batch).2.Relaxed :=
      h.relaxed.of_eq hasked.topology hcharacteristic hasked.extends
    have hattentive := h.of_asked hasked hsound hjustified hqueued hrelaxed
    split
    · next q hq =>
      rw [hq] at hgiven hattentive hasked
      exact hsearch q hattentive (hasked.isBuilt.trans hb) hgiven.1 hgiven.2
    · next hsome =>
      refine ⟨?_, hqueued, hrelaxed⟩
      cases hq : p.giveBatch batch with
      | mk given q =>
        rw [hq] at hgiven
        cases given with
        | none => exact (hsome q hq).elim
        | some l => exact hgiven
  · next hstatus =>
    rw [pending, hstatus] at hu
    exact hsearch p h hb hstatus hu
  · next hpropagating hidle =>
    refine ⟨?_, h.queued, h.relaxed⟩
    cases hstatus : p.status with
    | idle => exact (hidle hstatus).elim
    | propagating batch => exact (hpropagating batch hstatus).elim
    | blocking c given => exact .inl ⟨c, given, hstatus⟩
    | deciding l => exact .inr ⟨hu, fun h => nomatch hstatus.symm.trans h⟩

end ShaDiff.Propagator
