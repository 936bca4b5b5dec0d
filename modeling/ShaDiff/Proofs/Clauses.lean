import ShaDiff.Proofs.Run
import ShaDiff.Proofs.Soundness

/-!
# Reasons are unit and blocking clauses are false

An antecedent is false when it is read off the values, and stays so while these values
stay. Notices only add values, and a return discards the clause for the host and each reason
that has lost a value. So the host finds at most one literal of a reason open, the first
one, and none of a clause that blocks.
-/

namespace ShaDiff

/-- Whether what was found is made from antecedents and literals without value. -/
def Finding.Fits {ρ : Type} (p : Propagator ρ) : Finding → Prop
  | .nothing => True
  | .literals ls => ∀ l c, (l, c) ∈ ls →
    p.literal? l = none ∧ ∃ bits, c = l :: p.antecedent bits
  | .conflict c => c ≠ [] ∧ ∃ bits, c = p.antecedent bits

namespace Propagator

variable {ρ : Type} {config : Config} {source : ρ} {start p q : Propagator ρ}
  {rs : List Request} {r : Request} {l k : Literal} {c : Clause} {bits : List Bit}

theorem literal?_eq_some {v : Bool} :
    p.literal? l = some v ↔ p.value? l.atom = some (v == l.polarity) := by
  simp only [literal?, Valuation.literal?, Option.map_eq_some_iff, value?]
  constructor
  · rintro ⟨w, hw, rfl⟩
    simp [hw]
  · intro h
    exact ⟨_, h, by simp⟩

theorem literal?_eq_none : p.literal? l = none ↔ p.value? l.atom = none := by
  simp [literal?, Valuation.literal?, value?]

-- ---------------------------------------------------------------------------
-- Findings
-- ---------------------------------------------------------------------------

theorem nodup_antecedent (p : Propagator ρ) (bits : List Bit) : (p.antecedent bits).Nodup := by
  refine List.Pairwise.map _ (fun k l hne h => hne ?_) (Clause.ascending_ofList _).nodup
  rw [← k.negate_negate, h, l.negate_negate]

theorem literal?_of_mem_antecedent (h : k ∈ p.antecedent bits) : p.literal? k = some false := by
  obtain ⟨l, hl, rfl⟩ := List.mem_map.mp h
  obtain ⟨b, -, -, hvalue⟩ := mem_trueLiterals.mp hl
  rw [literal?_eq_some]
  simpa [Literal.negate] using hvalue

theorem Kept.fits (h : p.Kept q) {found : Finding} (hf : found.Fits q) : found.Fits p := by
  have hantecedent (bits : List Bit) : q.antecedent bits = p.antecedent bits := by
    simp only [antecedent, trueLiterals, value?, h.topology, h.valuation]
  have hliteral (l : Literal) : q.literal? l = p.literal? l := by
    simp only [literal?, h.valuation]
  cases found with
  | nothing => trivial
  | literals ls =>
    intro l c hmem
    obtain ⟨hl, bits, hc⟩ := hf l c hmem
    exact ⟨(hliteral l).symm.trans hl, bits, hc.trans (congrArg _ (hantecedent bits))⟩
  | conflict c =>
    obtain ⟨hne, bits, hc⟩ := hf
    exact ⟨hne, bits, hc.trans (hantecedent bits)⟩

theorem fits_contradiction (p : Propagator ρ) (bits : List Bit) :
    (p.contradiction (p.antecedent bits)).1.Fits p := by
  unfold contradiction
  split
  · trivial
  · next hne => exact ⟨fun h => hne (by rw [h]; rfl), bits, rfl⟩

theorem fits_withReasons {ls : List Literal} (h : ∀ l ∈ ls, p.literal? l = none)
    (bits : List Bit) : (withReasons ls (p.antecedent bits)).Fits p := by
  unfold withReasons
  split
  · trivial
  · intro l c hmem
    obtain ⟨k, hk, heq⟩ := List.mem_map.mp hmem
    obtain ⟨rfl, rfl⟩ := Prod.mk.inj heq
    exact ⟨h k hk, bits, rfl⟩

theorem literal?_of_mem_forced {b : Bit} {refined : Condition} (h : l ∈ p.forced b refined) :
    p.literal? l = none := by
  unfold forced at h
  split at h
  · cases h
  · simpa using (List.mem_filter.mp h).2

theorem fits_propagateColumn (p : Propagator ρ) (s : Site) : (p.propagateColumn s).1.Fits p := by
  unfold propagateColumn
  dsimp only
  split
  · trivial
  · have hcached (columnCache : ColumnCache) (counters : Counters) :
        p.Kept { p with columnCache, counters } := ⟨rfl, rfl, rfl, rfl, rfl, rfl, rfl⟩
    split
    · exact (hcached _ _).fits (fits_contradiction _ _)
    · refine (hcached _ _).fits (fits_withReasons (fun l hl => ?_) _)
      obtain ⟨b, c, hforced, -⟩ := exists_of_mem_columnLiterals hl
      exact literal?_of_mem_forced hforced

theorem fits_propagateSum (p : Propagator ρ) (sum : Nat) : (p.propagateSum sum).1.Fits p := by
  unfold propagateSum
  split
  · trivial
  · have hcached (sumCache : SumCache) : p.Kept { p with sumCache } :=
      ⟨rfl, rfl, rfl, rfl, rfl, rfl, rfl⟩
    dsimp only
    split
    · trivial
    · exact (hcached _).fits (fits_contradiction _ _)
    · have hequations (sumCache : SumCache) words relations antecedent :=
        (hcached sumCache).trans (kept_keepSumEquations _ sum words relations antecedent)
      split
      · trivial
      · refine (hcached _).fits (fits_withReasons (fun l hl => ?_) _)
        obtain ⟨b, c, -, hforced⟩ := exists_of_mem_firstForced hl
        have hnone := literal?_of_mem_forced hforced
        simp only [literal?, (hequations _ _ _ _).valuation] at hnone ⊢
        exact hnone

theorem fits_findPropagation (p : Propagator ρ) : p.findPropagation.1.Fits p :=
  findPropagation_induction (P := (·.Fits p)) trivial
    (fun q s hq => hq.fits (fits_propagateColumn q s))
    fun q sum hq => hq.fits (fits_propagateSum q sum)

-- ---------------------------------------------------------------------------
-- What is held for the host
-- ---------------------------------------------------------------------------

def UnitFor (p : Propagator ρ) (l : Literal) (c : Clause) : Prop :=
  ∃ rest, c = l :: rest ∧ c.Nodup ∧ ∀ k ∈ rest, p.literal? k = some false

def Falsified (p : Propagator ρ) (c : Clause) : Prop :=
  c ≠ [] ∧ c.Nodup ∧ ∀ k ∈ c, p.literal? k = some false

/-- Whether all that is held for the host is unit or false. -/
structure Justified (p : Propagator ρ) : Prop where
  reasons : ∀ (l : Literal) c, p.reasons[l]? = some c → p.UnitFor l c
  blocking : ∀ c given, p.status = .blocking c given → p.Falsified c

theorem Prepared.justified (h : Prepared config source p) : p.Justified := by
  obtain ⟨t, -, columnCache, rfl⟩ := h.exists_eq
  refine ⟨fun l c hc => ?_, nofun⟩
  simp [new] at hc

/-- What is held stays so while no false literal becomes another and nothing is added. -/
theorem Justified.mono (h : p.Justified)
    (hfalse : ∀ k, p.literal? k = some false → q.literal? k = some false)
    (hreasons : ∀ (l : Literal) c, q.reasons[l]? = some c → p.reasons[l]? = some c)
    (hstatus : ∀ c given, q.status = .blocking c given → ∃ given, p.status = .blocking c given) :
    q.Justified where
  reasons l c hc := by
    obtain ⟨rest, heq, hnodup, hrest⟩ := h.reasons l c (hreasons l c hc)
    exact ⟨rest, heq, hnodup, fun k hk => hfalse k (hrest k hk)⟩
  blocking c given hc := by
    obtain ⟨given, hc⟩ := hstatus c given hc
    obtain ⟨hne, hnodup, hall⟩ := h.blocking c given hc
    exact ⟨hne, hnodup, fun k hk => hfalse k (hall k hk)⟩

theorem Justified.refresh (h : p.Justified) : p.refresh.Justified := by
  rw [refresh_frame]
  exact h.mono (fun _ hk => hk) (fun _ _ hc => hc) fun _ given hc => ⟨given, hc⟩

theorem Justified.of_kept (h : p.Justified) (hq : p.Kept q) : q.Justified := by
  refine h.mono (fun k hk => ?_) (fun l c hc => hq.reasons ▸ hc)
    fun c given hc => ⟨given, hq.status ▸ hc⟩
  simpa only [literal?, hq.valuation] using hk

theorem Justified.assign (h : p.Justified) {isFixed : Bool}
    (hl : p.allows (.call (.assign l isFixed)) = true) : (p.assign l isFixed).Justified := by
  have hvalues (k : Literal) (hk : p.literal? k = some false) :
      (p.assign l isFixed).literal? k = some false := by
    rw [literal?_eq_some] at hk ⊢
    cases hb : p.isBuilt && p.topology.tracked.contains l.atom with
    | false => simpa [Propagator.assign, hb] using hk
    | true =>
      obtain ⟨hb, ht⟩ := Bool.and_eq_true_iff.mp hb
      rw [value?_assign hb ht]
      split
      · next heq =>
        obtain ⟨-, hpolarity⟩ := polarity_of_allows hl (heq ▸ hk)
        rw [hpolarity]
      · exact hk
  refine h.mono hvalues (fun l' c hc => ?_) fun c given hc => ⟨given, ?_⟩
  · unfold Propagator.assign at hc
    split at hc <;> exact hc
  · unfold Propagator.assign at hc
    split at hc <;> exact hc

theorem Justified.openLevel (h : p.Justified) : p.openLevel.Justified := by
  unfold Propagator.openLevel
  dsimp only
  split
  · exact h.mono (fun _ hk => hk) (fun _ _ hc => hc) nofun
  · exact h.mono (fun _ hk => hk) (fun _ _ hc => hc) fun _ given hc => ⟨given, hc⟩

theorem Justified.backtrack (h : p.Justified) (level : Nat) : (p.backtrack level).Justified := by
  have hreturned := returned_backtrack p level
  have hkept (k : Literal) (hk : p.literal? k = some false)
      (hvalued : ((p.backtrack level).literal? k).isSome = true) :
      (p.backtrack level).literal? k = some false := by
    rw [literal?_eq_some] at hk ⊢
    obtain ⟨v, hv⟩ := Option.isSome_iff_exists.mp hvalued
    rw [literal?_eq_some, hreturned.value] at hv
    rw [hreturned.value]
    split at hv
    · cases hv
    · next hspared => rw [if_neg hspared, hk]
  refine ⟨fun l c hc => ?_, nofun⟩
  rw [reasons_backtrack, Std.TreeMap.getElem?_filter', Option.filter_eq_some_iff] at hc
  obtain ⟨hc, hvalued⟩ := hc
  obtain ⟨rest, rfl, hnodup, hrest⟩ := h.reasons l c hc
  simp only [Bool.and_eq_true, List.all_eq_true] at hvalued
  exact ⟨rest, rfl, hnodup, fun k hk => hkept k (hrest k hk) (hvalued.2 k (.tail _ hk))⟩

theorem Justified.giveBatch (h : p.Justified) (batch : List Literal) :
    (p.giveBatch batch).2.Justified := by
  unfold Propagator.giveBatch
  split <;> exact h.mono (fun _ hk => hk) (fun _ _ hc => hc) nofun

/-- A reason that is found is made for a literal without value, from false ones. -/
theorem Justified.findBatch (h : p.Justified) : p.findBatch.2.Justified := by
  have hfits := fits_findPropagation p.refresh
  have hkept := kept_findPropagation p.refresh
  have hfound := h.refresh.of_kept hkept
  have hliteral (k : Literal) : p.refresh.findPropagation.2.literal? k = p.refresh.literal? k :=
    congrArg (·.literal? k) hkept.valuation
  unfold Propagator.findBatch
  split
  · next q hq =>
    rw [hq] at hfound
    exact hfound
  · next c q hq =>
    rw [hq] at hfound hfits hliteral
    obtain ⟨hne, bits, rfl⟩ := hfits
    refine { hfound with blocking := fun c given hc => ?_ }
    obtain ⟨rfl, -⟩ := Status.blocking.inj hc
    refine ⟨hne, nodup_antecedent _ bits, fun k hk => ?_⟩
    exact (hliteral k).trans (literal?_of_mem_antecedent hk)
  · next ls q hq =>
    rw [hq] at hfound hfits hliteral
    have hremembered : { q with
        reasons := ls.foldl (fun rs (l, reason) => rs.insert l reason) q.reasons }.Justified := by
      refine { hfound with reasons := fun l c hc => ?_ }
      rcases mem_of_getElem?_insertAll hc with hmem | hold
      · obtain ⟨hl, bits, rfl⟩ := hfits l c hmem
        refine ⟨_, rfl, List.nodup_cons.mpr ⟨fun hmem => ?_, nodup_antecedent _ bits⟩,
          fun k hk => (hliteral k).trans (literal?_of_mem_antecedent hk)⟩
        rw [literal?_of_mem_antecedent hmem] at hl
        cases hl
      · exact hfound.reasons l c hold
    exact hremembered.giveBatch _

theorem Justified.propagate (h : p.Justified) : p.propagate.2.Justified := by
  unfold Propagator.propagate
  split
  · split
    · next batch _ =>
      have hgiven := h.giveBatch batch
      split
      · next q hq =>
        rw [hq] at hgiven
        exact hgiven.findBatch
      · exact hgiven
    · exact h.findBatch
    · exact h
  · exact h

theorem Justified.decide [Coin ρ] (h : p.Justified) : p.decide.2.Justified := by
  have hfound : p.refresh.findDecision.2.Justified := by
    rw [findDecision_frame]
    exact { h.refresh with }
  unfold Propagator.decide
  split
  · split
    · next q hq =>
      rw [hq] at hfound
      exact hfound
    · next l q hq =>
      rw [hq] at hfound
      exact { hfound with blocking := nofun }
  · exact h

theorem Justified.reason (h : p.Justified) {given : Option Literal}
    (hr : p.reason l = .ok (given, q)) : q.Justified := by
  have hgiven {p : Propagator ρ} (h : p.Justified) (s : ReasonStream) :
      (p.giveReason s).2.Justified := by
    unfold giveReason
    split <;> exact { h with }
  unfold Propagator.reason at hr
  split at hr
  · next s _ =>
    have hq := hgiven h s
    rw [Except.ok.inj hr] at hq
    exact hq
  · split at hr
    · cases hr
    · next c _ =>
      have hcounted : { p with counters.reasons := p.counters.reasons + 1 }.Justified :=
        { h with }
      have hq := hgiven hcounted ⟨l, c, 0⟩
      rw [Except.ok.inj hr] at hq
      exact hq

/-- A clause made from live equations is false. -/
theorem falsified_checkTwoBit (h : p.checkTwoBit.1 = some c) : p.Falsified c := by
  have hne : c ≠ [] := by
    rintro rfl
    unfold checkTwoBit at h
    split at h
    · cases h
    · dsimp only at h
      split at h <;> simp_all
  obtain ⟨es, hes, -, rfl⟩ := TwoBit.Strategy.conflict?_eq_some (conflict?_of_checkTwoBit h)
  refine ⟨hne, (Clause.ascending_ofList _).nodup, fun k hk => ?_⟩
  obtain ⟨e, he, hk⟩ := Equation.mem_blockingClause.mp hk
  have hlive := (List.mem_filter.mp (Equation.mem_sort.mp (hes e he))).2
  simpa [Equation.isLive] using List.all_eq_true.mp hlive k hk

theorem Justified.hasClause (h : p.Justified) : p.hasClause.2.Justified := by
  have hasked : { p with queries := p.queries + 1 }.Justified := { h with }
  have hchecked : { p with queries := p.queries + 1 }.refresh.checkTwoBit.2.Justified := by
    rw [checkTwoBit_frame]
    exact { hasked.refresh with }
  have hliteral (k : Literal) :
      { p with queries := p.queries + 1 }.refresh.checkTwoBit.2.literal? k =
        { p with queries := p.queries + 1 }.refresh.literal? k := by
    rw [checkTwoBit_frame]
    rfl
  have hfalsified := fun c => falsified_checkTwoBit (c := c)
    (p := { p with queries := p.queries + 1 }.refresh)
  unfold Propagator.hasClause
  split
  · exact h
  · split
    · dsimp only
      split
      · exact hasked
      · split
        · next c q hq =>
          rw [hq] at hchecked hliteral hfalsified
          refine { hchecked with blocking := fun c' given hc => ?_ }
          obtain ⟨rfl, -⟩ := Status.blocking.inj hc
          obtain ⟨hne, hnodup, hall⟩ := hfalsified c rfl
          exact ⟨hne, hnodup, fun k hk => (hliteral k).trans (hall k hk)⟩
        · next q hq =>
          rw [hq] at hchecked
          exact hchecked
    · exact h
  · exact h

theorem Justified.clause (h : p.Justified) : p.clause.2.Justified := by
  unfold Propagator.clause
  split
  · next c given hstatus =>
    split
    · refine { h with blocking := fun c' given' hc => ?_ }
      obtain ⟨rfl, -⟩ := Status.blocking.inj hc
      exact h.blocking c given hstatus
    · exact { h with blocking := nofun }
  · exact h

theorem Justified.answer [Coin ρ] (h : p.Justified) {c : Call} {a : Answer}
    (hc : p.allows (.call c) = true) (ha : p.answer c = .ok (a, q)) : q.Justified := by
  cases c with
  | assign l isFixed =>
    obtain ⟨-, rfl⟩ := Prod.mk.inj (Except.ok.inj ha)
    exact h.assign hc
  | openLevel =>
    obtain ⟨-, rfl⟩ := Prod.mk.inj (Except.ok.inj ha)
    exact h.openLevel
  | backtrack level =>
    obtain ⟨-, rfl⟩ := Prod.mk.inj (Except.ok.inj ha)
    exact h.backtrack level
  | model ls =>
    obtain ⟨-, rfl⟩ := Prod.mk.inj (Except.ok.inj ha)
    exact h
  | decide =>
    obtain ⟨-, rfl⟩ := Prod.mk.inj (Except.ok.inj ha)
    exact h.decide
  | propagate =>
    obtain ⟨-, rfl⟩ := Prod.mk.inj (Except.ok.inj ha)
    exact h.propagate
  | reason l =>
    obtain ⟨_, hr, -⟩ := reason_of_answer ha
    exact h.reason hr
  | hasClause =>
    obtain ⟨-, rfl⟩ := Prod.mk.inj (Except.ok.inj ha)
    exact h.hasClause
  | clause =>
    obtain ⟨-, rfl⟩ := Prod.mk.inj (Except.ok.inj ha)
    exact h.clause

theorem justified_of_follow? [Coin ρ] (h : Prepared config source start)
    (hb : start.isBuilt = true) (hq : start.follow? rs = some q) : q.Justified := by
  refine follow?_induction (P := fun _ q => q.Justified) hb h.justified ?_ hq
  intro rs r p q _ hb hjustified hr hq
  cases r with
  | entry name value =>
    rw [serve?_entry hb] at hq
    cases hq
  | rules lines =>
    obtain rfl := Option.some.inj hq
    exact { hjustified with }
  | call c =>
    simp only [serve?] at hq
    split at hq
    · next ha =>
      obtain rfl := Option.some.inj hq
      exact hjustified.answer hr ha
    · cases hq

/-- At each point of a run all reasons that are kept are false apart from the literal in
front, and a clause that blocks is false and not empty. No literal is repeated in either. -/
theorem clauses_of_followed [Coin ρ] (h : Prepared config source start)
    (hb : start.isBuilt = true) (hq : start.follow? rs = some q) :
    (∀ (l : Literal) c, q.reasons[l]? = some c →
      ∃ rest, c = l :: rest ∧ c.Nodup ∧ ∀ k ∈ rest, q.literal? k = some false) ∧
    ∀ c given, q.status = .blocking c given →
      c ≠ [] ∧ c.Nodup ∧ ∀ k ∈ c, q.literal? k = some false :=
  ⟨(justified_of_follow? h hb hq).reasons, (justified_of_follow? h hb hq).blocking⟩

/-- The host takes the opposite of a literal it was given, and a column is contradictory. -/
theorem clauses_of_sampleRequests :
    let calls : List Call := [.openLevel, .assign ⟨25, false⟩ false, .assign ⟨3, false⟩ false,
      .propagate, .openLevel, .assign ⟨21, true⟩ false, .propagate, .propagate]
    ∃ (p q : Propagator Pcg) (c d : Clause) (given : Nat),
      Prepared { encoding := .li2024, wordSize := 1 } (.ofSeed 0) p ∧ p.isBuilt = true ∧
      p.follow? (calls.map .call) = some q ∧ q.reasons[(⟨22, false⟩ : Literal)]? = some c ∧
      (∃ rest, c = ⟨22, false⟩ :: rest ∧ c.Nodup ∧ ∀ k ∈ rest, q.literal? k = some false) ∧
      q.status = .blocking d given ∧ d ≠ [] ∧ d.Nodup ∧ ∀ k ∈ d, q.literal? k = some false := by
  intro calls
  have hserved : ((new { encoding := .li2024, wordSize := 1 } (Pcg.ofSeed 0)).serveAll?
      (sampleRequests [])).bind (fun p => (p.follow? (calls.map .call)).map fun q =>
        (p.isBuilt, q.reasons[(⟨22, false⟩ : Literal)]?, q.status)) =
      some (true, some [⟨22, false⟩, ⟨25, true⟩, ⟨3, true⟩],
        .blocking [⟨25, true⟩, ⟨3, true⟩, ⟨21, false⟩] 0) := by decide +kernel
  obtain ⟨p, hp, hserved⟩ := Option.bind_eq_some_iff.mp hserved
  obtain ⟨q, hq, hresult⟩ := Option.map_eq_some_iff.mp hserved
  obtain ⟨hb, hresult⟩ := Prod.mk.inj hresult
  obtain ⟨hreason, hstatus⟩ := Prod.mk.inj hresult
  have hprepared := Prepared.fresh.of_serveAll? (by decide +kernel) hp
  obtain ⟨hreasons, hblocking⟩ := clauses_of_followed hprepared hb hq
  exact ⟨p, q, _, _, _, hprepared, hb, hq, hreason, hreasons _ _ hreason, hstatus,
    hblocking _ _ hstatus⟩

end Propagator

end ShaDiff
