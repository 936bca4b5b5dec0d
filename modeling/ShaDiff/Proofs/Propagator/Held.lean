import ShaDiff.Proofs.Reasons
import ShaDiff.Proofs.Rejection
import ShaDiff.Proofs.Topology.Filling

/-!
# What is held for the host travels

An entry gives atoms that solvers have, and no others are tracked or get values. A reason
is a literal of a tracked atom before others of valued ones, and a clause that blocks is of
valued atoms alone. So whatever was requested, no literal that is held for the host travels
as the zero that ends a clause (`signed_ne_zero_of_held`).
-/

namespace ShaDiff

def Atom.Proper (a : Atom) : Prop := 1 ≤ a ∧ a ≤ Topology.atomMax

theorem Literal.signed_ne_zero {l : Literal} (h : l.atom.Proper) : l.signed ≠ 0 := by
  have hpos : (1 : Int) ≤ l.atom := Int.ofNat_le.mpr h.1
  intro hzero
  have htravels : l.signed.toInt = l.toInt :=
    toInt_signed (Nat.lt_of_le_of_lt h.2 (by decide))
  rw [hzero, toInt] at htravels
  have hzero : (0 : Int32).toInt = 0 := rfl
  split at htravels <;> omega

-- ---------------------------------------------------------------------------
-- Entries
-- ---------------------------------------------------------------------------

namespace Topology

variable {t t' : Topology} {name : String} {value : Int} {a : Atom}

theorem proper_of_slotsFilled {role : Role} {round : Int} {column : Nat} {slot : Option Nat}
    {filled : List (Nat × Atom)}
    (h : t.slotsFilled name role round column slot value = .ok filled) :
    ∀ x ∈ filled, x.2.Proper := by
  intro x hx
  refine ⟨?_, (slotsFilled_bounds h).2 x hx⟩
  rcases t.slotsFilled_cases name role round column slot value with
    ⟨fault, hfault, -⟩ | ⟨filled', count, hfilled, -, hpos, hatoms⟩
  · cases h.symm.trans hfault
  · obtain rfl := Except.ok.inj (h.symm.trans hfilled)
    have hmem : x.2 ∈ filled.map (·.2) := List.mem_map_of_mem hx
    rw [hatoms] at hmem
    obtain ⟨i, -, hi⟩ := List.mem_map.mp hmem
    rw [← hi]
    show 1 ≤ value.toNat + i
    omega

theorem tracked_fillSlots {b : Bit} {filled : List (Nat × Atom)}
    (ha : (t.fillSlots b filled).2.tracked.contains a = true) :
    t.tracked.contains a = true ∨ ∃ x ∈ filled, x.2 = a := by
  induction filled generalizing t with
  | nil => exact .inl ha
  | cons entry filled ih =>
    unfold fillSlots at ha
    split at ha
    · exact .inl ha
    · rcases ih ha with htracked | ⟨x, hx, rfl⟩
      · simp only [setSlot, Std.TreeMap.contains_insert, Bool.or_eq_true, beq_iff_eq,
          Std.LawfulEqCmp.compare_eq_iff_eq] at htracked
        exact htracked.symm.imp_right fun heq => ⟨entry, .head _, heq⟩
      · exact .inr ⟨x, .tail _ hx, rfl⟩

/-- An entry tracks atoms that solvers have and no others, whether it is accepted or not. -/
theorem tracked_enter {result : Except Fault Unit} (h : t.enter name value = .ok (result, t'))
    (ha : t'.tracked.contains a = true) : t.tracked.contains a = true ∨ a.Proper := by
  unfold enter at h
  split at h
  · cases h
    exact .inl ha
  split at h
  · cases h
    exact .inl ha
  · split at h
    · obtain ⟨words, steps, operations, sums, readers, order, rfl⟩ := build_frame h
      exact .inl ha
    · cases h
      exact .inl ha
  · split at h
    · cases h
      exact .inl ha
    · next hzero =>
      cases h
      simp only [enterZero, bind, Except.bind] at hzero
      split at hzero
      · cases hzero
      · split at hzero
        · cases hzero
        · cases hzero
          exact .inl ha
  · simp only [enterBit] at h
    split at h
    · cases h
      exact .inl ha
    · next hfilled =>
      obtain rfl : _ = t' := congrArg Prod.snd (Except.ok.inj h)
      rcases tracked_fillSlots ha with htracked | ⟨x, hx, rfl⟩
      · rw [(t.nameWord_frame _).2.2.2] at htracked
        exact .inl htracked
      · exact .inr (proper_of_slotsFilled hfilled x hx)

end Topology

namespace Propagator

variable {ρ : Type} {config : Config} {source : ρ} {p q : Propagator ρ} {c : Clause}
  {l : Literal} {requests : List Request} {replies : List Reply}

-- ---------------------------------------------------------------------------
-- The reason that is being given
-- ---------------------------------------------------------------------------

theorem stream_contradiction (p : Propagator ρ) (c : Clause) :
    (p.contradiction c).2.stream = p.stream := by
  unfold contradiction
  split <;> rfl

theorem stream_keepColumnEquations (p : Propagator ρ) (s : Site) (bits : List Bit)
    (relations : List Relation) (antecedent : Clause) :
    (p.keepColumnEquations s bits relations antecedent).stream = p.stream := by
  unfold keepColumnEquations
  split <;> rfl

theorem stream_keepSumEquations (p : Propagator ρ) (sum : Nat) (words : List Nat)
    (relations : List Sum.WordRelation) (antecedent : Clause) :
    (p.keepSumEquations sum words relations antecedent).stream = p.stream := by
  unfold keepSumEquations
  split <;> rfl

theorem stream_propagateColumn (p : Propagator ρ) (s : Site) :
    (p.propagateColumn s).2.stream = p.stream := by
  unfold propagateColumn
  dsimp only
  split
  · rfl
  · split
    · exact stream_contradiction _ _
    · exact stream_keepColumnEquations _ _ _ _ _

theorem stream_propagateSum (p : Propagator ρ) (sum : Nat) :
    (p.propagateSum sum).2.stream = p.stream := by
  unfold propagateSum
  split
  · rfl
  · dsimp only
    split
    · rfl
    · exact stream_contradiction _ _
    · split <;> exact stream_keepSumEquations _ _ _ _ _

theorem stream_findPropagation (p : Propagator ρ) : p.findPropagation.2.stream = p.stream :=
  (findPropagation_invariant (I := fun q => q.stream = p.stream) (P := fun _ => True) rfl
    (fun _ _ hq => hq) trivial
    (fun q s hq => ⟨trivial, (stream_propagateColumn q s).trans hq⟩)
    fun q sum hq => ⟨trivial, (stream_propagateSum q sum).trans hq⟩).2

theorem stream_giveBatch (p : Propagator ρ) (batch : List Literal) :
    (p.giveBatch batch).2.stream = p.stream := by
  unfold giveBatch
  split <;> rfl

theorem stream_findBatch (p : Propagator ρ) : p.findBatch.2.stream = p.stream := by
  have hfound : p.refresh.findPropagation.2.stream = p.stream := by
    rw [stream_findPropagation, refresh_frame]
  unfold findBatch
  split
  · next q hq =>
    rw [hq] at hfound
    exact hfound
  · next c q hq =>
    rw [hq] at hfound
    exact hfound
  · next ls q hq =>
    rw [hq] at hfound
    exact (stream_giveBatch _ _).trans hfound

theorem stream_propagate (p : Propagator ρ) : p.propagate.2.stream = p.stream := by
  unfold propagate
  split
  · split
    · next batch _ =>
      have hgiven := stream_giveBatch p batch
      split
      · next q hq =>
        rw [hq] at hgiven
        exact (stream_findBatch q).trans hgiven
      · exact hgiven
    · exact stream_findBatch p
    · rfl
  · rfl

theorem stream_decide [Coin ρ] (p : Propagator ρ) : p.decide.2.stream = p.stream := by
  have hframe := findDecision_frame p.refresh
  have hstream : p.refresh.stream = p.stream := by rw [refresh_frame]
  unfold Propagator.decide
  split
  · split
    · next q hq =>
      rw [hq] at hframe
      rw [show q = _ from hframe]
      exact hstream
    · next l q hq =>
      rw [hq] at hframe
      rw [show q = _ from hframe]
      exact hstream
  · rfl

theorem stream_hasClause (p : Propagator ρ) : p.hasClause.2.stream = p.stream := by
  have hframe := checkTwoBit_frame { p with queries := p.queries + 1 }.refresh
  have hstream : ({ p with queries := p.queries + 1 } : Propagator ρ).refresh.stream =
      p.stream := by rw [refresh_frame]
  unfold Propagator.hasClause
  split
  · rfl
  · split
    · dsimp only
      split
      · rfl
      · split
        · next d q hq =>
          rw [hq] at hframe
          rw [show q = _ from hframe]
          exact hstream
        · next q hq =>
          rw [hq] at hframe
          rw [show q = _ from hframe]
          exact hstream
    · rfl
  · rfl

-- ---------------------------------------------------------------------------
-- What is held
-- ---------------------------------------------------------------------------

/-- Whether a clause is held for the host: as a reason, as one that blocks, or as the reason
that is being given. -/
inductive Holds (p : Propagator ρ) (c : Clause) : Prop
  | reason {l : Literal} : p.reasons[l]? = some c → Holds p c
  | blocking {given : Nat} : p.status = .blocking c given → Holds p c
  | stream {s : ReasonStream} : p.stream = some s → s.clause = c → Holds p c

/-- Whether all atoms that are tracked, valued or held for the host are such that solvers
have. -/
structure Proper (p : Propagator ρ) : Prop where
  tracks : p.topology.Tracks
  tracked : ∀ a, p.topology.tracked.contains a = true → a.Proper
  valued : ∀ a v, p.value? a = some v → a.Proper
  held : ∀ c, p.Holds c → ∀ l ∈ c, l.atom.Proper

theorem Holds.of_eq (h : q.Holds c) (hreasons : q.reasons = p.reasons)
    (hstatus : q.status = p.status) (hstream : ∀ s, q.stream = some s → p.stream = some s) :
    p.Holds c := by
  cases h with
  | reason hc => exact .reason (hreasons ▸ hc)
  | blocking hc => exact .blocking (hstatus ▸ hc)
  | stream hs hc => exact .stream (hstream _ hs) hc

theorem Proper.mono (h : p.Proper) (htopology : q.topology = p.topology)
    (hvalues : ∀ a v, q.value? a = some v → p.value? a = some v ∨ a.Proper)
    (hheld : ∀ c, q.Holds c → p.Holds c ∨ ∀ l ∈ c, l.atom.Proper) : q.Proper where
  tracks := htopology ▸ h.tracks
  tracked := htopology ▸ h.tracked
  valued a v hv := (hvalues a v hv).elim (h.valued a v) id
  held c hc := (hheld c hc).elim (h.held c) id

theorem Proper.of_status (h : p.Proper) (htopology : q.topology = p.topology)
    (hvalues : q.valuation.values = p.valuation.values) (hreasons : q.reasons = p.reasons)
    (hstream : q.stream = p.stream)
    (hstatus : ∀ c given, q.status = .blocking c given → ∀ l ∈ c, l.atom.Proper) : q.Proper := by
  refine h.mono htopology (fun a v hv => .inl ?_) fun c hc => ?_
  · rwa [value?, Valuation.value?, hvalues] at hv
  · cases hc with
    | reason hc => exact .inl (.reason (hreasons ▸ hc))
    | blocking hc => exact .inr (hstatus c _ hc)
    | stream hs hc => exact .inl (.stream (hstream ▸ hs) hc)

theorem Proper.of_eq (h : p.Proper) (htopology : q.topology = p.topology)
    (hvalues : q.valuation.values = p.valuation.values) (hreasons : q.reasons = p.reasons)
    (hstatus : q.status = p.status) (hstream : q.stream = p.stream) : q.Proper :=
  h.of_status htopology hvalues hreasons hstream fun c _ hc => h.held c (.blocking (hstatus ▸ hc))

theorem Proper.of_literal? (h : p.Proper) {v : Bool} (hl : p.literal? l = some v) :
    l.atom.Proper := h.valued _ _ (literal?_eq_some.mp hl)

theorem Proper.refresh (h : p.Proper) : p.refresh.Proper := by
  rw [refresh_frame]
  exact h.of_eq rfl rfl rfl rfl rfl

theorem Proper.of_kept (h : p.Proper) (hkept : p.Kept q) (hstream : q.stream = p.stream) :
    q.Proper :=
  h.of_eq hkept.topology (congrArg Valuation.values hkept.valuation) hkept.reasons hkept.status
    hstream

-- ---------------------------------------------------------------------------
-- Calls
-- ---------------------------------------------------------------------------

theorem Proper.assign (h : p.Proper) (l : Literal) (isFixed : Bool) :
    (p.assign l isFixed).Proper := by
  refine h.mono (topology_assign p l isFixed) (fun a v hv => ?_) fun c hc => .inl ?_
  · cases hb : p.isBuilt && p.topology.tracked.contains l.atom with
    | false => exact .inl (by simpa [Propagator.assign, hb] using hv)
    | true =>
      obtain ⟨hb, ht⟩ := Bool.and_eq_true_iff.mp hb
      rw [value?_assign hb ht] at hv
      split at hv
      · next heq => exact .inr (heq ▸ h.tracked _ ht)
      · exact .inl hv
  · rw [assign_frame] at hc
    exact hc.of_eq rfl rfl fun _ hs => hs

theorem Proper.openLevel (h : p.Proper) : p.openLevel.Proper := by
  have hstatus := p.status_openLevel
  rw [openLevel_frame]
  refine h.of_status rfl rfl rfl rfl fun c given hc => ?_
  rcases hstatus with hsame | ⟨-, hidle⟩
  · exact h.held c (.blocking (hsame ▸ hc))
  · cases hidle.symm.trans hc

theorem Proper.backtrack (h : p.Proper) (level : Nat) : (p.backtrack level).Proper := by
  have hreturned := returned_backtrack p level
  refine h.mono hreturned.topology (fun a v hv => .inl ?_) fun c hc => .inl ?_
  · rw [hreturned.value] at hv
    split at hv
    · cases hv
    · exact hv
  · cases hc with
    | reason hc =>
      rw [reasons_backtrack, Std.TreeMap.getElem?_filter', Option.filter_eq_some_iff] at hc
      exact .reason hc.1
    | blocking hc => cases hc
    | stream hs => cases hs

theorem Proper.giveBatch (h : p.Proper) (batch : List Literal) :
    (p.giveBatch batch).2.Proper := by
  unfold Propagator.giveBatch
  split <;> exact h.of_status rfl rfl rfl rfl nofun

/-- The clauses that are found are made of literals that are tracked and of valued ones. -/
theorem Proper.findBatch (h : p.Proper) : p.findBatch.2.Proper := by
  have hrefreshed := h.refresh
  have hfits := fits_findPropagation p.refresh
  have htracked := tracked_findPropagation hrefreshed.tracks
  have hfound := hrefreshed.of_kept (kept_findPropagation p.refresh) (stream_findPropagation _)
  have hantecedent (bits : List Bit) : ∀ l ∈ p.refresh.antecedent bits, l.atom.Proper :=
    fun l hl => hrefreshed.of_literal? (literal?_of_mem_antecedent hl)
  unfold Propagator.findBatch
  split
  · next q hq =>
    rw [hq] at hfound
    exact hfound
  · next c q hq =>
    rw [hq] at hfound hfits
    obtain ⟨-, bits, rfl⟩ := hfits
    refine hfound.of_status rfl rfl rfl rfl fun c given hc => ?_
    obtain ⟨rfl, -⟩ := Status.blocking.inj hc
    exact hantecedent bits
  · next ls q hq =>
    rw [hq] at hfound hfits htracked
    have hremembered : { q with
        reasons := ls.foldl (fun rs (l, reason) => rs.insert l reason) q.reasons }.Proper := by
      refine hfound.mono rfl (fun _ _ hv => .inl hv) fun c hc => ?_
      cases hc with
      | @reason l hc =>
        rcases mem_of_getElem?_insertAll hc with hmem | hold
        · obtain ⟨-, bits, rfl⟩ := hfits l c hmem
          refine .inr fun k hk => ?_
          rcases List.mem_cons.mp hk with rfl | hk
          · exact hrefreshed.tracked _ (htracked _ hmem)
          · exact hantecedent bits k hk
        · exact .inl (.reason hold)
      | blocking hc => exact .inl (.blocking hc)
      | stream hs hc => exact .inl (.stream hs hc)
    exact hremembered.giveBatch _

theorem Proper.propagate (h : p.Proper) : p.propagate.2.Proper := by
  unfold Propagator.propagate
  split
  · split
    · next batch _ =>
      have hgiven := h.giveBatch batch
      split
      · next q hq =>
        rw [hq] at hgiven
        exact hgiven.findBatch
      · exact hgiven
    · exact h.findBatch
    · exact h
  · exact h

theorem Proper.decide [Coin ρ] (h : p.Proper) : p.decide.2.Proper := by
  have hfound : p.refresh.findDecision.2.Proper := by
    rw [findDecision_frame]
    exact h.refresh.of_eq rfl rfl rfl rfl rfl
  unfold Propagator.decide
  split
  · split
    · next q hq =>
      rw [hq] at hfound
      exact hfound
    · next l q hq =>
      rw [hq] at hfound
      exact hfound.of_status rfl rfl rfl rfl nofun
  · exact h

theorem Proper.giveReason (h : p.Proper) {s : ReasonStream} (hs : ∀ l ∈ s.clause, l.atom.Proper) :
    (p.giveReason s).2.Proper := by
  unfold Propagator.giveReason
  split
  · refine h.mono rfl (fun _ _ hv => .inl hv) fun c hc => ?_
    cases hc with
    | reason hc => exact .inl (.reason hc)
    | blocking hc => exact .inl (.blocking hc)
    | stream hstream hc =>
      obtain rfl := Option.some.inj hstream
      exact .inr (hc ▸ hs)
  · exact h.mono rfl (fun _ _ hv => .inl hv) fun c hc =>
      .inl (hc.of_eq rfl rfl nofun)

theorem Proper.reason (h : p.Proper) {given : Option Literal}
    (hr : p.reason l = .ok (given, q)) : q.Proper := by
  unfold Propagator.reason at hr
  split at hr
  · next s hs =>
    have hq := h.giveReason (s := s)
      (h.held _ (.stream (Option.filter_eq_some_iff.mp hs).1 rfl))
    rwa [Except.ok.inj hr] at hq
  · split at hr
    · cases hr
    · next c hc =>
      have hcounted : { p with counters.reasons := p.counters.reasons + 1 }.Proper :=
        h.of_eq rfl rfl rfl rfl rfl
      have hq := hcounted.giveReason (s := ⟨l, c, 0⟩) (h.held c (.reason hc))
      rwa [Except.ok.inj hr] at hq

theorem Proper.hasClause (h : p.Proper) : p.hasClause.2.Proper := by
  have hasked : { p with queries := p.queries + 1 }.Proper := h.of_eq rfl rfl rfl rfl rfl
  have hchecked : { p with queries := p.queries + 1 }.refresh.checkTwoBit.2.Proper := by
    rw [checkTwoBit_frame]
    exact hasked.refresh.of_eq rfl rfl rfl rfl rfl
  have hfalsified := fun c => falsified_checkTwoBit (c := c)
    (p := { p with queries := p.queries + 1 }.refresh)
  unfold Propagator.hasClause
  split
  · exact h
  · split
    · dsimp only
      split
      · exact hasked
      · split
        · next c q hq =>
          rw [hq] at hchecked hfalsified
          refine hchecked.of_status rfl rfl rfl rfl fun d given hd => ?_
          obtain ⟨rfl, -⟩ := Status.blocking.inj hd
          obtain ⟨-, -, hall⟩ := hfalsified c rfl
          exact fun l hl => hasked.refresh.of_literal? (hall l hl)
        · next q hq =>
          rw [hq] at hchecked
          exact hchecked
    · exact h
  · exact h

theorem Proper.clause (h : p.Proper) : p.clause.2.Proper := by
  unfold Propagator.clause
  split
  · next c given hstatus =>
    split
    · refine h.of_status rfl rfl rfl rfl fun d given' hd => ?_
      obtain ⟨rfl, -⟩ := Status.blocking.inj hd
      exact h.held c (.blocking hstatus)
    · exact h.of_status rfl rfl rfl rfl nofun
  · exact h

theorem Proper.answer [Coin ρ] (h : p.Proper) {call : Call} {a : Answer}
    (ha : p.answer call = .ok (a, q)) : q.Proper := by
  cases call with
  | reason l =>
    obtain ⟨_, hr, -⟩ := reason_of_answer ha
    exact h.reason hr
  | assign l isFixed =>
    obtain ⟨-, rfl⟩ := Prod.mk.inj (Except.ok.inj ha)
    exact h.assign l isFixed
  | openLevel =>
    obtain ⟨-, rfl⟩ := Prod.mk.inj (Except.ok.inj ha)
    exact h.openLevel
  | backtrack level =>
    obtain ⟨-, rfl⟩ := Prod.mk.inj (Except.ok.inj ha)
    exact h.backtrack level
  | model =>
    obtain ⟨-, rfl⟩ := Prod.mk.inj (Except.ok.inj ha)
    exact h
  | decide =>
    obtain ⟨-, rfl⟩ := Prod.mk.inj (Except.ok.inj ha)
    exact h.decide
  | propagate =>
    obtain ⟨-, rfl⟩ := Prod.mk.inj (Except.ok.inj ha)
    exact h.propagate
  | hasClause =>
    obtain ⟨-, rfl⟩ := Prod.mk.inj (Except.ok.inj ha)
    exact h.hasClause
  | clause =>
    obtain ⟨-, rfl⟩ := Prod.mk.inj (Except.ok.inj ha)
    exact h.clause

-- ---------------------------------------------------------------------------
-- Requests
-- ---------------------------------------------------------------------------

theorem proper_new (config : Config) (source : ρ) : (new config source).Proper where
  tracks := (Topology.sane_initial config.encoding config.wordSize).tracks
  tracked a ha := by simp [new] at ha
  valued a v hv := by simp [new, value?, Valuation.value?, Valuation.empty] at hv
  held c hc := by
    cases hc with
    | reason hc => simp [new] at hc
    | blocking hc => cases hc
    | stream hs => cases hs

theorem Proper.configure (h : p.Proper) {name : String} {value : Int}
    {result : Except Fault Unit} (hc : p.configure name value = .ok (result, q)) : q.Proper := by
  obtain ⟨entered, henter, hc⟩ := exists_of_bind_eq_ok hc
  obtain ⟨-, rfl⟩ := Prod.mk.inj (Except.ok.inj hc)
  refine ⟨h.tracks.enter henter, fun a ha => ?_, fun a v hv => ?_, fun c hc => h.held c ?_⟩
  · exact (Topology.tracked_enter henter ha).elim (h.tracked a) id
  · simp only [value?] at hv
    split at hv
    · exact h.valued a v hv
    · simp [Valuation.value?, Valuation.empty] at hv
  · exact hc.of_eq rfl rfl fun _ hs => hs

variable [Coin ρ]

theorem Proper.reply (h : p.Proper) {r : Request} {a : Reply} (hr : p.reply r = .ok (a, q)) :
    q.Proper := by
  cases r with
  | entry name value =>
    obtain ⟨⟨result, q'⟩, hc, heq⟩ := exists_of_map_eq_ok hr
    obtain ⟨-, rfl⟩ := Prod.mk.inj heq
    exact h.configure hc
  | rules lines =>
    obtain ⟨-, rfl⟩ := Prod.mk.inj (Except.ok.inj hr)
    exact h.of_eq rfl rfl rfl rfl rfl
  | call c =>
    obtain ⟨⟨answer, q'⟩, hc, heq⟩ := exists_of_map_eq_ok hr
    obtain ⟨-, rfl⟩ := Prod.mk.inj heq
    exact h.answer hc

/-- Whatever was requested, no literal that is held for the host travels as zero. -/
theorem signed_ne_zero_of_held (hq : (new config source).replyAll requests = .ok (replies, q))
    (hc : q.Holds c) : ∀ l ∈ c, l.signed ≠ 0 :=
  fun l hl => Literal.signed_ne_zero
    ((replyAll_induction (fun h hr => h.reply hr) (proper_new config source) hq).held c hc l hl)

end Propagator

end ShaDiff
