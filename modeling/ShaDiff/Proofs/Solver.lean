import ShaDiff.Proofs.Start

/-!
# Runs of a solver

A solver tells a propagator only what it may, and takes what it is given: a literal is
notified before the next question unless it is false by then, and a false literal or a
false clause makes the solver return to a lower level. A new level is opened only where
propagation has come to its end. Then whenever propagation comes to its end again, it
has come to a fixpoint (`fixpoint_of_idle`). As the values below a level are those that
the level was opened on, each return leads to a fixpoint as well (`Steady`).
-/

namespace ShaDiff

open Propagator (entryRequests)

/-- What a solver has to do next. -/
inductive Duty
  | none
  | notify (l : Literal)
  | retreat
deriving DecidableEq

def Duty.owed : Duty → List Literal
  | notify l => [l]
  | _ => []

structure Solver (ρ : Type) where
  propagator : Propagator ρ
  duty : Duty := .none
  /-- Whether propagation came to its end and nothing was notified since. -/
  quiet : Bool := false

namespace Solver

variable {ρ : Type} {s s' : Solver ρ} {p q : Propagator ρ} {c : Call} {a : Answer}

/-- Whether the solver may make a call. One that has to return may still ask, for a reason
say, but for no more propagation. -/
def permits (s : Solver ρ) : Call → Bool
  | .assign l isFixed => s.duty != .retreat && s.propagator.allows (.call (.assign l isFixed)) &&
      (!isFixed || s.propagator.trail.level == 0)
  | .openLevel => s.duty == .none && s.quiet
  | .backtrack level => level < s.propagator.trail.level
  | .propagate => s.duty == .none
  | _ => s.duty.owed.isEmpty

def dutyAfter (s : Solver ρ) : Call → Answer → Duty
  | .assign k _, _ =>
    match s.duty with
    | .notify l => if k.atom = l.atom then .none else .notify l
    | duty => duty
  | .backtrack _, _ => .none
  | .propagate, .literal (some l) =>
    if s.propagator.literal? l = some false then .retreat else .notify l
  | .clause, .literal none =>
    match s.propagator.status with
    | .blocking clause _ =>
      if clause.all fun l => s.propagator.literal? l == some false then .retreat else s.duty
    | _ => s.duty
  | _, _ => s.duty

def quietAfter (s : Solver ρ) (q : Propagator ρ) : Call → Answer → Bool
  | .assign .., _ | .backtrack _, _ => false
  | .propagate, .literal none => s.quiet || q.status == .idle
  | _, _ => s.quiet

variable [Coin ρ]

def step? (s : Solver ρ) (c : Call) : Option (Solver ρ) :=
  if s.permits c then
    match s.propagator.answer c with
    | .ok (a, q) => some ⟨q, s.dutyAfter c a, s.quietAfter q c a⟩
    | .error _ => none
  else none

def run? (s : Solver ρ) : List Call → Option (Solver ρ)
  | [] => some s
  | c :: cs => (s.step? c).bind (·.run? cs)

-- ---------------------------------------------------------------------------
-- Invariant
-- ---------------------------------------------------------------------------

/-- Whether each level was opened on a fixpoint, and at the current one all is underway
unless the solver is about to return. -/
structure Steady (s : Solver ρ) : Prop where
  attentive : s.propagator.Attentive
  built : s.propagator.isBuilt = true
  levels : ∀ level < s.propagator.trail.level, (s.propagator.backtrack level).Fixpoint
  quiet : s.quiet = true → s.propagator.refresh.Fixpoint
  underway : s.duty = .retreat ∨ (∃ c given, s.propagator.status = .blocking c given) ∨
    s.propagator.Underway (s.duty.owed ++ s.propagator.pending)

theorem step?_eq_some : s.step? c = some s' ↔ s.permits c = true ∧
    ∃ a q, s.propagator.answer c = .ok (a, q) ∧
      s' = ⟨q, s.dutyAfter c a, s.quietAfter q c a⟩ := by
  unfold step?
  split
  · next hc =>
    simp only [hc, true_and]
    cases s.propagator.answer c with
    | error => simp
    | ok r =>
      obtain ⟨a, q⟩ := r
      simp [eq_comm]
  · next hc => simp [hc]

omit [Coin ρ] in
theorem permits_assign {l : Literal} {isFixed : Bool}
    (h : s.permits (.assign l isFixed) = true) : s.duty ≠ .retreat ∧
      s.propagator.allows (.call (.assign l isFixed)) = true ∧
      (isFixed = true → s.propagator.trail.level = 0) := by
  simp only [permits, Bool.and_eq_true, bne_iff_ne, Bool.or_eq_true, Bool.not_eq_true',
    beq_iff_eq] at h
  obtain ⟨⟨hduty, hallows⟩, hlevel⟩ := h
  exact ⟨hduty, hallows, fun hfixed => hlevel.resolve_left (by rw [hfixed]; nofun)⟩

omit [Coin ρ] in
theorem mem_owed_assign {l k : Literal} (hk : k ∈ s.duty.owed) (hne : l.atom ≠ k.atom)
    (isFixed : Bool) (a : Answer) : k ∈ (s.dutyAfter (.assign l isFixed) a).owed := by
  cases hd : s.duty with
  | none | retreat => rw [hd] at hk; cases hk
  | notify k' =>
    rw [hd] at hk
    obtain rfl := List.mem_singleton.mp hk
    simp [dutyAfter, hd, hne, Duty.owed]

omit [Coin ρ] in
theorem Steady.assign (h : s.Steady) {l : Literal} {isFixed : Bool}
    (hc : s.permits (.assign l isFixed) = true) :
    Steady ⟨s.propagator.assign l isFixed, s.dutyAfter (.assign l isFixed) .noted, false⟩ := by
  obtain ⟨hduty, hallows, hfixed⟩ := permits_assign hc
  have hattentive := h.attentive.assign hallows
  have htopology := s.propagator.topology_assign l isFixed
  have hframe := s.propagator.assign_frame l isFixed
  refine ⟨hattentive, (s.propagator.isBuilt_assign l isFixed).trans h.built,
    fun level hlevel => ?_, nofun, ?_⟩
  · cases ht : s.propagator.topology.tracked.contains l.atom with
    | false =>
      rw [Propagator.assign_of_untracked ht] at hlevel ⊢
      exact h.levels level hlevel
    | true =>
      rw [Propagator.trail_assign h.built ht] at hlevel
      cases isFixed with
      | true =>
        rw [if_pos rfl, hfixed rfl] at hlevel
        cases hlevel
      | false =>
        have hlevel : level < s.propagator.trail.level := Trail.level_store _ l ▸ hlevel
        exact (h.levels level hlevel).returned h.attentive hattentive (by rw [hframe]) htopology
          (Propagator.value?_backtrack_assign h.attentive h.built ht hallows hlevel)
  · have hstatus : (s.propagator.assign l isFixed).status = s.propagator.status := by rw [hframe]
    rcases h.underway with hretreat | hblocking | hu
    · exact absurd hretreat hduty
    · exact .inr (.inl (hstatus ▸ hblocking))
    · refine .inr (.inr ((hu.assign h.attentive.sound.tracks h.built hallows).mono rfl rfl
        (fun _ => rfl) (fun _ _ hv => hv) (fun _ hm => hm) (fun _ hi => hi) fun k hk => .inl ?_))
      obtain ⟨hk, hne⟩ := List.mem_filter.mp hk
      have hne : l.atom ≠ k.atom := (bne_iff_ne.mp hne).symm
      rw [Propagator.pending, hstatus]
      refine List.mem_append.mpr ((List.mem_append.mp hk).imp_left fun hk => ?_)
      exact mem_owed_assign hk hne isFixed .noted

omit [Coin ρ] in
theorem Steady.openLevel (h : s.Steady) (hc : s.permits .openLevel = true) :
    Steady { s with propagator := s.propagator.openLevel } := by
  have hquiet := h.quiet (Bool.and_eq_true_iff.mp hc).2
  have hattentive := h.attentive.openLevel
  have hframe := s.propagator.openLevel_frame
  have htrail : s.propagator.openLevel.trail = s.propagator.trail.push := by rw [hframe]
  refine ⟨hattentive, ?_, fun level hlevel => ?_, fun _ => ?_, ?_⟩
  · rw [hframe]
    exact h.built
  · rw [htrail, Trail.level_push] at hlevel
    rcases Nat.lt_succ_iff_lt_or_eq.mp hlevel with hlt | rfl
    · refine (h.levels level hlt).returned h.attentive hattentive (by rw [hframe]) (by rw [hframe])
        fun a => ?_
      rw [(Propagator.returned_backtrack _ level).value,
        (Propagator.returned_backtrack _ level).value, htrail,
        Trail.fst_popTo_push (Nat.le_of_lt hlt), hframe]
      rfl
    · exact hquiet.opened h.attentive
  · exact hquiet.refreshed h.attentive hattentive (by rw [hframe]) (by rw [hframe])
      fun a => by rw [hframe]; rfl
  · refine h.underway.imp_right (Or.imp ?_ fun hu => ?_)
    · rintro ⟨c, given, hblocking⟩
      refine ⟨c, given, ?_⟩
      rcases s.propagator.status_openLevel with hstatus | ⟨⟨l, hdeciding⟩, -⟩
      · exact hstatus.trans hblocking
      · exact nomatch hblocking.symm.trans hdeciding
    · rw [Propagator.pending_openLevel]
      exact hu.openLevel

omit [Coin ρ] in
/-- A return leads to the fixpoint that the level was left on. -/
theorem Steady.backtrack (h : s.Steady) {level : Nat}
    (hc : s.permits (.backtrack level) = true) :
    Steady ⟨s.propagator.backtrack level, .none, false⟩ := by
  have hlevel : level < s.propagator.trail.level := of_decide_eq_true hc
  have hreturned := Propagator.returned_backtrack s.propagator level
  have hattentive := h.attentive.backtrack level
  refine ⟨hattentive, ?_, fun k hk => ?_, nofun, .inr (.inr (h.levels level hlevel).underway)⟩
  · rw [Propagator.isBuilt, hreturned.topology]
    exact h.built
  · rw [hreturned.trail, Trail.level_popTo] at hk
    exact (h.levels k (by omega)).returned h.attentive hattentive hreturned.config
      hreturned.topology (s.propagator.value?_backtrack_backtrack (by omega))

omit [Coin ρ] in
theorem Steady.asked (h : s.Steady) (hasked : s.propagator.Asked q) (hq : q.Attentive)
    {duty : Duty} {quiet : Bool} (hquiet : quiet = true → s.quiet = true ∨ q.refresh.Fixpoint)
    (hu : duty = .retreat ∨ (∃ c given, q.status = .blocking c given) ∨
      q.Underway (duty.owed ++ q.pending)) : Steady ⟨q, duty, quiet⟩ where
  attentive := hq
  built := hasked.isBuilt.trans h.built
  levels level hlevel := by
    refine (h.levels level (hasked.trail ▸ hlevel)).returned h.attentive hq hasked.config
      hasked.topology fun a => ?_
    rw [(Propagator.returned_backtrack q level).value,
      (Propagator.returned_backtrack s.propagator level).value, hasked.trail, hasked.topology,
      hasked.fixed, hasked.value?]
  quiet hq' := by
    rcases hquiet hq' with hold | hnew
    · exact (h.quiet hold).refreshed h.attentive hq hasked.config hasked.topology hasked.value?
    · exact hnew
  underway := hu

omit [Coin ρ] in
theorem Steady.propagate (h : s.Steady) (hc : s.permits .propagate = true) :
    Steady ⟨s.propagator.propagate.2,
      s.dutyAfter .propagate (.literal s.propagator.propagate.1),
      s.quietAfter s.propagator.propagate.2 .propagate (.literal s.propagator.propagate.1)⟩ := by
  have hduty : s.duty = .none := beq_iff_eq.mp hc
  have hasked := Propagator.asked_propagate s.propagator
  have hsound := h.attentive.sound.propagate
  have hjustified := h.attentive.justified.propagate
  rcases h.underway with hretreat | ⟨c, given, hstatus⟩ | hu
  · exact nomatch hduty.symm.trans hretreat
  · rw [Propagator.propagate_of_blocking hstatus]
    refine h.asked (.refl _) h.attentive (fun hquiet => .inl ?_) (.inr (.inl ⟨c, given, hstatus⟩))
    simpa [quietAfter, hstatus] using hquiet
  · rw [hduty] at hu
    obtain ⟨hleft, hqueued, hrelaxed⟩ := h.attentive.left_propagate h.built hu
    have hattentive := h.attentive.of_asked hasked hsound hjustified hqueued hrelaxed
    cases hanswer : s.propagator.propagate.1 with
    | some l =>
      rw [hanswer] at hleft
      refine h.asked hasked hattentive .inl ?_
      simp only [dutyAfter]
      split
      · exact .inl rfl
      · exact .inr (.inr hleft)
    | none =>
      rw [hanswer] at hleft
      refine h.asked hasked hattentive (fun hquiet => ?_) ?_
      · simp only [quietAfter, Bool.or_eq_true, beq_iff_eq] at hquiet
        refine hquiet.imp_right fun hidle => ?_
        rcases hleft with ⟨c, given, hblocking⟩ | ⟨-, hfixpoint⟩
        · exact nomatch hidle.symm.trans hblocking
        · obtain ⟨hfixpoint, hreflects⟩ := hfixpoint hidle
          have hrefreshed := Propagator.asked_refresh s.propagator.propagate.2
          exact hfixpoint.of_values hrefreshed.config hrefreshed.topology hreflects
            (Propagator.reflects_refresh hattentive.sound.mirrors) hrefreshed.value?
      · rw [show s.dutyAfter .propagate (.literal none) = .none from hduty]
        exact .inr (hleft.imp_right And.left)

omit [Coin ρ] in
theorem dutyAfter_of_isQuestion (hq : c.isQuestion = true) (hne : c ≠ .propagate) :
    s.dutyAfter c a = s.duty ∨ s.dutyAfter c a = .retreat := by
  unfold dutyAfter
  split
  · cases hq
  · cases hq
  · exact (hne rfl).elim
  · split
    · split
      · exact .inr rfl
      · exact .inl rfl
    · exact .inl rfl
  · exact .inl rfl

omit [Coin ρ] in
theorem quietAfter_of_isQuestion (hq : c.isQuestion = true) (hne : c ≠ .propagate) :
    s.quietAfter q c a = s.quiet := by
  unfold quietAfter
  split
  · cases hq
  · cases hq
  · exact (hne rfl).elim
  · rfl

omit [Coin ρ] in
theorem owed_of_permits (hc : s.permits c = true) (hq : c.isQuestion = true)
    (hne : c ≠ .propagate) : s.duty.owed = [] := by
  cases c with
  | assign | openLevel | backtrack => cases hq
  | propagate => exact (hne rfl).elim
  | _ => exact List.isEmpty_iff.mp hc

/-- A clause that was given in full is false, so the solver has to return. -/
theorem Steady.ask (h : s.Steady) (hc : s.permits c = true) (hq : c.isQuestion = true)
    (hne : c ≠ .propagate) (ha : s.propagator.answer c = .ok (a, q)) :
    Steady ⟨q, s.dutyAfter c a, s.quietAfter q c a⟩ := by
  have hseen := Propagator.seen_answer hq hne ha
  have hasked := Propagator.asked_answer hq ha
  have hjustified := h.attentive.justified.answer (c := c)
    (by cases c <;> first | rfl | cases hq) ha
  have hattentive := hseen.attentive h.attentive hasked (h.attentive.sound.answer ha) hjustified
  refine h.asked hasked hattentive
    (fun hquiet => .inl (quietAfter_of_isQuestion hq hne ▸ hquiet)) ?_
  rcases dutyAfter_of_isQuestion (s := s) (a := a) hq hne with hduty | hduty
  · rw [hduty]
    rcases h.underway with hretreat | ⟨clause, given, hstatus⟩ | hu
    · exact .inl hretreat
    · rcases Propagator.blocking_answer hstatus hq ha with ⟨given, hstatus⟩ | ⟨rfl, rfl⟩
      · exact .inr (.inl ⟨clause, given, hstatus⟩)
      · -- Literals of a clause that blocks are false as long as it does.
        have hall := (h.attentive.justified.blocking clause given hstatus).2.2
        refine .inl (hduty ▸ ?_)
        simp only [dutyAfter, hstatus]
        rw [if_pos (List.all_eq_true.mpr fun k hk => by rw [hall k hk]; rfl)]
    · rw [owed_of_permits hc hq hne] at hu ⊢
      exact .inr (.inr (hseen.underway h.attentive hasked hu))
  · exact .inl hduty

/-- All that the solver may do keeps it steady. -/
theorem Steady.step? (h : s.Steady) (hs : s.step? c = some s') : s'.Steady := by
  obtain ⟨hc, a, q, ha, rfl⟩ := step?_eq_some.mp hs
  cases c with
  | assign l isFixed =>
    obtain ⟨rfl, rfl⟩ := Prod.mk.inj (Except.ok.inj ha)
    exact h.assign hc
  | openLevel =>
    obtain ⟨rfl, rfl⟩ := Prod.mk.inj (Except.ok.inj ha)
    exact h.openLevel hc
  | backtrack level =>
    obtain ⟨rfl, rfl⟩ := Prod.mk.inj (Except.ok.inj ha)
    exact h.backtrack hc
  | propagate =>
    obtain ⟨rfl, rfl⟩ := Prod.mk.inj (Except.ok.inj ha)
    exact h.propagate hc
  | _ => exact h.ask hc rfl nofun ha

theorem Steady.run? (h : s.Steady) {cs : List Call} (hs : s.run? cs = some s') : s'.Steady := by
  induction cs generalizing s with
  | nil => exact Option.some.inj hs ▸ h
  | cons c cs ih =>
    obtain ⟨t, ht, hs⟩ := Option.bind_eq_some_iff.mp hs
    exact ih (h.step? ht) hs

-- ---------------------------------------------------------------------------
-- From the start
-- ---------------------------------------------------------------------------

omit [Coin ρ] in
theorem Steady.of_started {config : Config} (h : p.Started config) :
    Steady { propagator := p } where
  attentive := h.attentive
  built := h.built
  levels _ hlevel := by
    rw [h.trail] at hlevel
    cases hlevel
  quiet := nofun
  underway := by
    have hpending : p.pending = [] := by rw [Propagator.pending, h.status]
    refine .inr (.inr ?_)
    rw [hpending]
    exact h.underway

/-- Whenever a solver finds that propagation has come to its end, no column and, with
wordwise propagation, no sum is contradictory or forces a literal without value. The conditions
in force are those that the values of the atoms give. -/
theorem fixpoint_of_idle {config : Config} {source : ρ} {entries : List (String × Int)}
    {calls : List Call} (hn : config.wordSize ≤ wordSizeMax)
    (hp : (Propagator.new config source).serveAll? (entryRequests entries) = some p)
    (hb : p.isBuilt = true) (hrun : run? { propagator := p } calls = some s)
    (hc : s.permits .propagate = true) (hq : s.propagator.propagate = (none, q))
    (hidle : q.status = .idle) :
    q.Fixpoint ∧ q.topology.Reflects q.valuation q.characteristic := by
  have hsteady := (Steady.of_started (Propagator.started_of_entries hn hp hb)).run? hrun
  rcases hsteady.underway with hretreat | ⟨c, given, hstatus⟩ | hu
  · exact nomatch (beq_iff_eq.mp hc).symm.trans hretreat
  · obtain ⟨-, rfl⟩ := Prod.mk.inj (hq.symm.trans (Propagator.propagate_of_blocking hstatus))
    exact nomatch hidle.symm.trans hstatus
  · rw [show s.duty = .none from beq_iff_eq.mp hc] at hu
    have hleft := (hsteady.attentive.left_propagate hsteady.built hu).1
    rw [hq] at hleft
    rcases hleft with ⟨c, given, hblocking⟩ | ⟨-, hfixpoint⟩
    · exact nomatch hidle.symm.trans hblocking
    · exact hfixpoint hidle

/-- Two columns, which read rotated bits, force three literals. They are given and notified in
turn at a new level. -/
theorem fixpoint_of_wideEntries :
    let calls : List Call := [.propagate, .openLevel, .assign ⟨15, false⟩ false,
      .assign ⟨17, true⟩ false, .propagate, .assign ⟨51, true⟩ false, .propagate,
      .assign ⟨53, false⟩ false, .propagate, .assign ⟨54, false⟩ false]
    ∃ (p : Propagator Pcg) (s : Solver Pcg) (q : Propagator Pcg),
      (Propagator.new { encoding := .li2024, wordSize := 2 } (.ofSeed 0)).serveAll?
        (entryRequests Topology.wideEntries) = some p ∧ p.isBuilt = true ∧
      run? { propagator := p } calls = some s ∧ s.permits .propagate = true ∧
      s.propagator.propagate = (none, q) ∧ q.status = .idle ∧ q.Fixpoint ∧
      q.topology.Reflects q.valuation q.characteristic := by
  intro calls
  have hserved : ((Propagator.new { encoding := .li2024, wordSize := 2 }
      (Pcg.ofSeed 0)).serveAll? (entryRequests Topology.wideEntries)).bind (fun p =>
        (run? { propagator := p } calls).map fun s => (p.isBuilt, s.permits .propagate,
          s.propagator.propagate.1, s.propagator.propagate.2.status)) =
      some (true, true, none, .idle) := by decide +kernel
  obtain ⟨p, hp, hserved⟩ := Option.bind_eq_some_iff.mp hserved
  obtain ⟨s, hrun, hresult⟩ := Option.map_eq_some_iff.mp hserved
  obtain ⟨hb, hresult⟩ := Prod.mk.inj hresult
  obtain ⟨hc, hresult⟩ := Prod.mk.inj hresult
  obtain ⟨hnone, hidle⟩ := Prod.mk.inj hresult
  have hq : s.propagator.propagate = (none, s.propagator.propagate.2) := Prod.ext hnone rfl
  exact ⟨p, s, _, hp, hb, hrun, hc, hq, hidle,
    fixpoint_of_idle (by decide) hp hb hrun hc hq hidle⟩

end Solver

end ShaDiff
