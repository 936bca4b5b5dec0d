import ShaDiff.Proofs.Mirroring

/-!
# Equations are about differences

An equation is found between bits, and names the atoms in their difference slots. Slots are
filled until the topology is built and equations are found from then on, so whatever is
requested, all equations name atoms that are in such slots.
-/

namespace ShaDiff

namespace Topology

variable {κ : Type} [Ord κ] [Std.TransOrd κ] [Std.LawfulEqOrd κ] {t : Topology}
  {m : Std.TreeMap κ (List Equation)}

def Joins (t : Topology) (e : Equation) : Prop :=
  ∀ a, a = e.a ∨ a = e.b → ∃ b slot, t.encoding.differenceSlot? = some slot ∧
    (t.slots b)[slot]?.join = some a

def JoinsAll (t : Topology) (m : Std.TreeMap κ (List Equation)) : Prop :=
  ∀ (k : κ) es, m[k]? = some es → ∀ e ∈ es, t.Joins e

theorem JoinsAll.insert (h : t.JoinsAll m) {es : List Equation} (hes : ∀ e ∈ es, t.Joins e)
    (k : κ) : t.JoinsAll (m.insert k es) :=
  Cache.all_insert_entries (P := fun _ es => ∀ e ∈ es, t.Joins e) h hes

end Topology

namespace Propagator

variable {ρ : Type} {config : Config} {source : ρ} {p q : Propagator ρ} {requests : List Request}
  {replies : List Reply}

/-- Whether all equations are about atoms in difference slots, and none was found before the
topology was built. -/
structure Slotted (p : Propagator ρ) : Prop where
  columnEquations : p.topology.JoinsAll p.columnEquations
  sumEquations : p.topology.JoinsAll p.sumEquations
  unbuilt : p.isBuilt = false →
    (∀ s : Site, p.columnEquations[s]? = none) ∧ ∀ sum : Nat, p.sumEquations[sum]? = none

theorem Slotted.of_eq (h : p.Slotted) (htopology : q.topology = p.topology)
    (hcolumn : q.columnEquations = p.columnEquations) (hsum : q.sumEquations = p.sumEquations) :
    q.Slotted := by
  refine ⟨?_, ?_, fun hb => ?_⟩
  · rw [htopology, hcolumn]
    exact h.columnEquations
  · rw [htopology, hsum]
    exact h.sumEquations
  · rw [hcolumn, hsum]
    rw [isBuilt, htopology] at hb
    exact h.unbuilt hb

theorem Slotted.joins (h : p.Slotted) : ∀ e ∈ p.equations, p.topology.Joins e := by
  intro e he
  rcases List.mem_append.mp he with he | he
  · obtain ⟨es, hes, he⟩ := List.mem_flatten.mp he
    obtain ⟨s, hs⟩ := exists_of_mem_values hes
    exact h.columnEquations s es hs e he
  · obtain ⟨es, hes, he⟩ := List.mem_flatten.mp he
    obtain ⟨sum, hsum⟩ := exists_of_mem_values hes
    exact h.sumEquations sum es hsum e he

-- ---------------------------------------------------------------------------
-- Searches
-- ---------------------------------------------------------------------------

theorem joins_of_equation? {slot : Nat} {b c : Bit} {value : Bool} {antecedent : Clause}
    {e : Equation} (hslot : p.equationSlot? = some slot)
    (he : p.equation? slot b c value antecedent = some e) : p.topology.Joins e := by
  have hslot : p.topology.encoding.differenceSlot? = some slot := by
    unfold equationSlot? at hslot
    split at hslot
    · cases hslot
    · exact hslot
  obtain ⟨x, hx, he⟩ := Option.bind_eq_some_iff.mp he
  obtain ⟨y, hy, he⟩ := Option.bind_eq_some_iff.mp he
  obtain ⟨-, -, he⟩ := Option.bind_eq_some_iff.mp he
  obtain rfl := Option.some.inj he
  intro a ha
  have hbetween : a = x ∨ a = y := by
    unfold Equation.between at ha
    split at ha
    · exact ha
    · exact ha.symm
  rcases hbetween with rfl | rfl
  · exact ⟨b, slot, hslot, hx⟩
  · exact ⟨c, slot, hslot, hy⟩

theorem Slotted.keepColumnEquations (h : p.Slotted) (hb : p.isBuilt = true) (s : Site)
    (bits : List Bit) (relations : List Relation) (antecedent : Clause) :
    (p.keepColumnEquations s bits relations antecedent).Slotted := by
  unfold Propagator.keepColumnEquations
  split
  · exact h
  · next slot hslot =>
    refine ⟨h.columnEquations.insert (fun e he => ?_) s, h.sumEquations,
      fun hnot => nomatch hb.symm.trans hnot⟩
    simp only [List.mem_filterMap, bind, Option.bind_eq_some_iff] at he
    obtain ⟨r, -, b, -, c, -, he⟩ := he
    exact joins_of_equation? hslot he

theorem Slotted.keepSumEquations (h : p.Slotted) (hb : p.isBuilt = true) (sum : Nat)
    (words : List Nat) (relations : List Sum.WordRelation) (antecedent : Clause) :
    (p.keepSumEquations sum words relations antecedent).Slotted := by
  unfold Propagator.keepSumEquations
  split
  · exact h
  · next slot hslot =>
    refine ⟨h.columnEquations, h.sumEquations.insert (fun e he => ?_) sum,
      fun hnot => nomatch hb.symm.trans hnot⟩
    simp only [List.mem_filterMap, bind, Option.bind_eq_some_iff] at he
    obtain ⟨r, -, v, -, w, -, he⟩ := he
    exact joins_of_equation? hslot he

theorem Slotted.contradiction (h : p.Slotted) (c : Clause) : (p.contradiction c).2.Slotted := by
  unfold Propagator.contradiction
  split
  · exact h
  · exact h.of_eq rfl rfl rfl

theorem Slotted.propagateColumn (h : p.Slotted) (hb : p.isBuilt = true) (s : Site) :
    (p.propagateColumn s).2.Slotted := by
  have hcached (columnCache : ColumnCache) (counters : Counters) :
      ({ p with columnCache, counters } : Propagator ρ).Slotted := h.of_eq rfl rfl rfl
  unfold Propagator.propagateColumn
  dsimp only
  split
  · exact hcached _ _
  · split
    · exact (hcached _ _).contradiction _
    · have hkept (columnCache : ColumnCache) (counters : Counters) bits relations antecedent :=
        (hcached columnCache counters).keepColumnEquations hb s bits relations antecedent
      exact hkept _ _ _ _ _

theorem Slotted.propagateSum (h : p.Slotted) (hb : p.isBuilt = true) (sum : Nat) :
    (p.propagateSum sum).2.Slotted := by
  have hcached (sumCache : SumCache) : ({ p with sumCache } : Propagator ρ).Slotted :=
    h.of_eq rfl rfl rfl
  unfold Propagator.propagateSum
  split
  · exact h
  · dsimp only
    split
    · exact hcached _
    · exact (hcached _).contradiction _
    · have hkept (sumCache : SumCache) words relations antecedent :=
        (hcached sumCache).keepSumEquations hb sum words relations antecedent
      split
      · exact hkept _ _ _ _
      · exact (hkept _ _ _ _).of_eq rfl rfl rfl

theorem Slotted.findPropagation (h : p.Slotted) (hb : p.isBuilt = true) :
    p.findPropagation.2.Slotted := by
  have hkept {q r : Propagator ρ} (hq : q.isBuilt = true) (hqr : q.Kept r) : r.isBuilt = true :=
    (congrArg (·.order.isSome) hqr.topology).trans hq
  refine (findPropagation_invariant (I := fun q => q.Slotted ∧ q.isBuilt = true)
    (P := fun _ => True) ⟨h, hb⟩ (fun q marks hq => ⟨hq.1.of_eq rfl rfl rfl, hq.2⟩) trivial
    (fun q s hq => ⟨trivial, ?_⟩) fun q sum hq => ⟨trivial, ?_⟩).2.1
  · exact ⟨hq.1.propagateColumn hq.2 s, hkept hq.2 (kept_propagateColumn q s)⟩
  · exact ⟨hq.1.propagateSum hq.2 sum, hkept hq.2 (kept_propagateSum q sum)⟩

-- ---------------------------------------------------------------------------
-- Calls
-- ---------------------------------------------------------------------------

theorem Slotted.refresh (h : p.Slotted) : p.refresh.Slotted := by
  rw [refresh_frame]
  exact h.of_eq rfl rfl rfl

theorem Slotted.assign (h : p.Slotted) (l : Literal) (isFixed : Bool) :
    (p.assign l isFixed).Slotted := by
  rw [assign_frame]
  exact h.of_eq rfl rfl rfl

theorem Slotted.openLevel (h : p.Slotted) : p.openLevel.Slotted := by
  rw [openLevel_frame]
  exact h.of_eq rfl rfl rfl

theorem Slotted.backtrack (h : p.Slotted) (level : Nat) : (p.backtrack level).Slotted := by
  have hback (trail : Trail) (valuation : Valuation) :
      ({ p with trail, valuation } : Propagator ρ).refresh.Slotted :=
    Slotted.refresh (h.of_eq rfl rfl rfl)
  exact (hback _ _).of_eq rfl rfl rfl

theorem Slotted.decide [Coin ρ] (h : p.Slotted) : p.decide.2.Slotted := by
  have hfound : p.refresh.findDecision.2.Slotted := by
    rw [findDecision_frame]
    exact h.refresh.of_eq rfl rfl rfl
  unfold Propagator.decide
  split
  · split
    · next q hq =>
      rw [hq] at hfound
      exact hfound
    · next l q hq =>
      rw [hq] at hfound
      exact hfound.of_eq rfl rfl rfl
  · exact h

theorem Slotted.giveBatch (h : p.Slotted) (batch : List Literal) :
    (p.giveBatch batch).2.Slotted := by
  unfold Propagator.giveBatch
  split <;> exact h.of_eq rfl rfl rfl

theorem Slotted.findBatch (h : p.Slotted) (hb : p.isBuilt = true) : p.findBatch.2.Slotted := by
  have hfound := h.refresh.findPropagation (p.asked_refresh.isBuilt.trans hb)
  unfold Propagator.findBatch
  split
  · next q hq =>
    rw [hq] at hfound
    exact hfound
  · next c q hq =>
    rw [hq] at hfound
    exact hfound.of_eq rfl rfl rfl
  · next ls q hq =>
    rw [hq] at hfound
    have hremembered (reasons : Std.TreeMap Literal Clause) :
        ({ q with reasons } : Propagator ρ).Slotted := hfound.of_eq rfl rfl rfl
    exact (hremembered _).giveBatch _

theorem Slotted.propagate (h : p.Slotted) : p.propagate.2.Slotted := by
  unfold Propagator.propagate
  split
  · next hb =>
    split
    · next batch _ =>
      have hgiven := h.giveBatch batch
      have hasked := asked_giveBatch p batch
      split
      · next q hq =>
        rw [hq] at hgiven hasked
        exact hgiven.findBatch (hasked.isBuilt.trans hb)
      · exact hgiven
    · exact h.findBatch hb
    · exact h
  · exact h

theorem Slotted.reason (h : p.Slotted) {l : Literal} {k : Option Literal}
    (hr : p.reason l = .ok (k, q)) : q.Slotted := by
  have hgiven {p : Propagator ρ} (h : p.Slotted) (s : ReasonStream) :
      (p.giveReason s).2.Slotted := by
    unfold giveReason
    split <;> exact h.of_eq rfl rfl rfl
  unfold Propagator.reason at hr
  split at hr
  · next s _ =>
    have hq := hgiven h s
    rwa [Except.ok.inj hr] at hq
  · split at hr
    · cases hr
    · next c _ =>
      have hcounted (counters : Counters) : ({ p with counters } : Propagator ρ).Slotted :=
        h.of_eq rfl rfl rfl
      have hq := hgiven (hcounted { p.counters with reasons := p.counters.reasons + 1 }) ⟨l, c, 0⟩
      rwa [Except.ok.inj hr] at hq

theorem Slotted.hasClause (h : p.Slotted) : p.hasClause.2.Slotted := by
  have hchecked (queries : Nat) :
      ({ p with queries } : Propagator ρ).refresh.checkTwoBit.2.Slotted := by
    rw [checkTwoBit_frame]
    exact (Slotted.refresh (p := { p with queries }) (h.of_eq rfl rfl rfl)).of_eq rfl rfl rfl
  have hfound := hchecked (p.queries + 1)
  unfold Propagator.hasClause
  split
  · exact h
  · split
    · dsimp only
      split
      · exact h.of_eq rfl rfl rfl
      · split
        · next c q hq =>
          rw [hq] at hfound
          exact hfound.of_eq rfl rfl rfl
        · next q hq =>
          rw [hq] at hfound
          exact hfound
    · exact h
  · exact h

theorem Slotted.clause (h : p.Slotted) : p.clause.2.Slotted := by
  unfold Propagator.clause
  split
  · split <;> exact h.of_eq rfl rfl rfl
  · exact h

theorem Slotted.answer [Coin ρ] (h : p.Slotted) {c : Call} {a : Answer}
    (hc : p.answer c = .ok (a, q)) : q.Slotted := by
  cases c with
  | reason l =>
    obtain ⟨_, hr, -⟩ := reason_of_answer hc
    exact h.reason hr
  | assign l isFixed =>
    obtain ⟨-, rfl⟩ := Prod.mk.inj (Except.ok.inj hc)
    exact h.assign l isFixed
  | openLevel =>
    obtain ⟨-, rfl⟩ := Prod.mk.inj (Except.ok.inj hc)
    exact h.openLevel
  | backtrack level =>
    obtain ⟨-, rfl⟩ := Prod.mk.inj (Except.ok.inj hc)
    exact h.backtrack level
  | model =>
    obtain ⟨-, rfl⟩ := Prod.mk.inj (Except.ok.inj hc)
    exact h
  | decide =>
    obtain ⟨-, rfl⟩ := Prod.mk.inj (Except.ok.inj hc)
    exact h.decide
  | propagate =>
    obtain ⟨-, rfl⟩ := Prod.mk.inj (Except.ok.inj hc)
    exact h.propagate
  | hasClause =>
    obtain ⟨-, rfl⟩ := Prod.mk.inj (Except.ok.inj hc)
    exact h.hasClause
  | clause =>
    obtain ⟨-, rfl⟩ := Prod.mk.inj (Except.ok.inj hc)
    exact h.clause

-- ---------------------------------------------------------------------------
-- Requests
-- ---------------------------------------------------------------------------

theorem slotted_new (config : Config) (source : ρ) : (new config source).Slotted where
  columnEquations s es hes := by simp [new] at hes
  sumEquations sum es hes := by simp [new] at hes
  unbuilt _ := ⟨fun s => by simp [new], fun sum => by simp [new]⟩

theorem Slotted.configure (h : p.Slotted) {name : String} {value : Int}
    {result : Except Fault Unit} (hc : p.configure name value = .ok (result, q)) : q.Slotted := by
  obtain ⟨entered, henter, hc⟩ := exists_of_bind_eq_ok hc
  obtain ⟨-, rfl⟩ := Prod.mk.inj (Except.ok.inj hc)
  cases hb : p.isBuilt with
  | true =>
    rw [Topology.enter_of_isBuilt hb] at henter
    exact h.of_eq (congrArg Prod.snd (Except.ok.inj henter)).symm rfl rfl
  | false =>
    obtain ⟨hcolumn, hsum⟩ := h.unbuilt hb
    refine ⟨fun s _ hes => ?_, fun sum _ hes => ?_, fun _ => ⟨hcolumn, hsum⟩⟩
    · exact nomatch (hcolumn s).symm.trans hes
    · exact nomatch (hsum sum).symm.trans hes

variable [Coin ρ]

theorem Slotted.reply (h : p.Slotted) {r : Request} {a : Reply} (hr : p.reply r = .ok (a, q)) :
    q.Slotted := by
  cases r with
  | entry name value =>
    obtain ⟨⟨result, q'⟩, hc, heq⟩ := exists_of_map_eq_ok hr
    obtain ⟨-, rfl⟩ := Prod.mk.inj heq
    exact h.configure hc
  | rules lines =>
    obtain ⟨-, rfl⟩ := Prod.mk.inj (Except.ok.inj hr)
    exact h.of_eq rfl rfl rfl
  | call c =>
    obtain ⟨⟨answer, q'⟩, hc, heq⟩ := exists_of_map_eq_ok hr
    obtain ⟨-, rfl⟩ := Prod.mk.inj heq
    exact h.answer hc

theorem slotted_of_replyAll (hq : (new config source).replyAll requests = .ok (replies, q)) :
    q.Slotted :=
  replyAll_induction (fun h hr => h.reply hr) (slotted_new config source) hq

end Propagator

end ShaDiff
