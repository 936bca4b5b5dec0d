import ShaDiff.Proofs.Propagator.Batch
import ShaDiff.Proofs.Restoration

/-!
# Reasons last as long as their literals

Each literal the host is given, and each one left to be given, has a reason. Reasons are
made anew only for literals without value and are dropped only on a return that takes a
value of theirs. Now all that the reason of a literal speaks of had its value before the
literal was assigned, so it lies below the literal on the trail or is fixed. A return that
spares the literal spares all of it, and the host can ask for the reason until then.
-/

namespace ShaDiff

def Finding.Tracked (t : Topology) : Finding → Prop
  | .literals ls => ∀ x ∈ ls, t.tracked.contains x.1.atom = true
  | _ => True

namespace Propagator

variable {ρ : Type} {config : Config} {source : ρ} {start p q : Propagator ρ}
  {rs : List Request} {r : Request} {l k : Literal} {rest c : Clause} {level : Nat}

-- ---------------------------------------------------------------------------
-- What is found
-- ---------------------------------------------------------------------------

theorem tracked_of_mem_forced (ht : p.topology.Tracks) {b : Bit} {refined : Condition}
    (hl : l ∈ p.forced b refined) : p.topology.tracked.contains l.atom = true := by
  obtain ⟨-, r, -, hr, -⟩ := exists_of_mem_forced hl
  exact tracked_of_literal? ht hr

theorem tracked_withReasons {t : Topology} {ls : List Literal}
    (h : ∀ l ∈ ls, t.tracked.contains l.atom = true) (antecedent : Clause) :
    (withReasons ls antecedent).Tracked t := by
  unfold withReasons
  split
  · trivial
  · rintro x hx
    obtain ⟨l, hl, rfl⟩ := List.mem_map.mp hx
    exact h l hl

theorem tracked_contradiction (p : Propagator ρ) (t : Topology) (c : Clause) :
    (p.contradiction c).1.Tracked t := by
  unfold contradiction
  split <;> trivial

theorem tracked_propagateColumn (ht : p.topology.Tracks) (s : Site) :
    (p.propagateColumn s).1.Tracked p.topology := by
  unfold propagateColumn
  dsimp only
  split
  · trivial
  · split
    · exact tracked_contradiction _ _ _
    · refine tracked_withReasons (fun l hl => ?_) _
      obtain ⟨b, c, hforced, -⟩ := exists_of_mem_columnLiterals hl
      exact tracked_of_mem_forced ht hforced

theorem tracked_propagateSum (ht : p.topology.Tracks) (sum : Nat) :
    (p.propagateSum sum).1.Tracked p.topology := by
  unfold propagateSum
  split
  · trivial
  · dsimp only
    split
    · trivial
    · exact tracked_contradiction _ _ _
    · next s _ refined relations _ =>
      split
      · trivial
      · refine tracked_withReasons (fun l hl => ?_) _
        obtain ⟨b, c, -, hforced⟩ := exists_of_mem_firstForced hl
        have hkept (p : Propagator ρ) (words) (antecedent : Clause) :=
          (kept_keepSumEquations p sum words relations antecedent).topology
        have htracked := tracked_of_mem_forced (by rw [hkept]; exact ht) hforced
        rwa [hkept] at htracked

theorem tracked_findPropagation (ht : p.topology.Tracks) :
    p.findPropagation.1.Tracked p.topology := by
  refine findPropagation_induction trivial (fun q s hq => ?_) fun q sum hq => ?_
  · rw [← hq.topology] at ht ⊢
    exact tracked_propagateColumn ht s
  · rw [← hq.topology] at ht ⊢
    exact tracked_propagateSum ht sum

-- ---------------------------------------------------------------------------
-- Questions
-- ---------------------------------------------------------------------------

def Explains (p : Propagator ρ) (l : Literal) : Prop :=
  p.topology.tracked.contains l.atom = true ∧ (p.reasons[l]?).isSome = true

/-- What a question may do to reasons: one is changed only of a literal without value, and
each literal that is given or newly left to be given has one. -/
structure Explained (p : Propagator ρ) (given : Option Literal) (q : Propagator ρ) : Prop where
  topology : q.topology = p.topology
  reasons : ∀ l : Literal,
    q.reasons[l]? = p.reasons[l]? ∨ p.literal? l = none ∧ (q.reasons[l]?).isSome = true
  given : ∀ l, given = some l ∨ l ∈ q.pending → l ∈ p.pending ∨ q.Explains l

theorem Explained.of_seen (h : p.Seen q) (htopology : q.topology = p.topology)
    (hreasons : q.reasons = p.reasons) : p.Explained none q where
  topology := htopology
  reasons l := .inl (by rw [hreasons])
  given l hl := .inl (h.pending ▸ hl.resolve_left nofun)

theorem Explains.explained (h : p.Explains l) {given : Option Literal} (hq : p.Explained given q) :
    q.Explains l := by
  refine ⟨hq.topology ▸ h.1, ?_⟩
  rcases hq.reasons l with heq | ⟨-, hsome⟩
  · rw [heq]
    exact h.2
  · exact hsome

theorem explained_giveBatch (p : Propagator ρ) (batch : List Literal) :
    (p.giveBatch batch).2.topology = p.topology ∧ (p.giveBatch batch).2.reasons = p.reasons ∧
      ∀ l, (p.giveBatch batch).1 = some l ∨ l ∈ (p.giveBatch batch).2.pending → l ∈ batch := by
  have hsuffix := List.dropWhile_suffix (l := batch) fun l => p.literal? l == some true
  unfold Propagator.giveBatch
  split
  · refine ⟨rfl, rfl, fun l hl => ?_⟩
    rcases hl with hl | hl <;> cases hl
  · next l rest heq =>
    rw [heq] at hsuffix
    refine ⟨rfl, rfl, fun k hk => hsuffix.subset ?_⟩
    rcases hk with hk | hk
    · exact Option.some.inj hk ▸ .head _
    · exact .tail _ hk

theorem eq_of_giveBatch_none {batch : List Literal} (h : p.giveBatch batch = (none, q)) :
    q = { p with status := .idle } := by
  unfold Propagator.giveBatch at h
  split at h
  · exact (Prod.mk.inj h).2.symm
  · cases h

theorem getElem?_insertAll (ls : List (Literal × Clause)) (reasons : Std.TreeMap Literal Clause)
    (l : Literal) :
    (ls.foldl (fun rs (l, reason) => rs.insert l reason) reasons)[l]? = reasons[l]? ∧
        l ∉ ls.map Prod.fst ∨
      l ∈ ls.map Prod.fst ∧
        (ls.foldl (fun rs (l, reason) => rs.insert l reason) reasons)[l]?.isSome = true := by
  induction ls generalizing reasons with
  | nil => exact .inl ⟨rfl, nofun⟩
  | cons x ls ih =>
    rw [List.foldl_cons, List.map_cons, List.mem_cons]
    rcases ih (reasons.insert x.1 x.2) with ⟨heq, hmem⟩ | ⟨hmem, hsome⟩
    · rw [heq, Std.TreeMap.getElem?_insert]
      simp only [Std.LawfulEqCmp.compare_eq_iff_eq]
      split
      · next hx => exact .inr ⟨.inl hx.symm, rfl⟩
      · next hx => exact .inl ⟨rfl, fun h => h.elim (fun h => hx h.symm) hmem⟩
    · exact .inr ⟨.inr hmem, hsome⟩

theorem explained_findBatch (ht : p.topology.Tracks) (hpending : p.pending = []) :
    p.Explained p.findBatch.1 p.findBatch.2 := by
  have hfits := fits_findPropagation p.refresh
  have hkept := kept_findPropagation p.refresh
  have htopology : p.refresh.findPropagation.2.topology = p.topology :=
    hkept.topology.trans p.asked_refresh.topology
  have htracked : p.refresh.findPropagation.1.Tracked p.topology := by
    rw [← p.asked_refresh.topology] at ht ⊢
    exact tracked_findPropagation ht
  have hreasons : p.refresh.findPropagation.2.reasons = p.reasons := by
    rw [hkept.reasons, refresh_frame]
  have hstatus : p.refresh.findPropagation.2.status = p.status := by
    rw [hkept.status, refresh_frame]
  unfold Propagator.findBatch
  split
  · next q hq =>
    rw [hq] at htopology hreasons hstatus
    refine ⟨htopology, fun l => .inl (by rw [hreasons]), fun l hl => ?_⟩
    have hpending : q.pending = [] := by rw [← hpending, pending, pending, hstatus]
    rw [hpending] at hl
    rcases hl with hl | hl <;> cases hl
  · next c q hq =>
    rw [hq] at htopology hreasons
    refine ⟨htopology, fun l => .inl ?_, fun l hl => ?_⟩
    · exact congrArg (fun reasons : Std.TreeMap Literal Clause => reasons[l]?) hreasons
    · rcases hl with hl | hl <;> cases hl
  · next ls q hq =>
    rw [hq] at htopology hreasons htracked hfits
    obtain ⟨hgiven, hremembered, hbatch⟩ := explained_giveBatch { q with
      reasons := ls.foldl (fun rs x => rs.insert x.1 x.2) q.reasons } (ls.map Prod.fst)
    have hfound := getElem?_insertAll ls q.reasons
    refine ⟨hgiven.trans htopology, fun l => ?_, fun l hl => .inr ⟨?_, ?_⟩⟩
    · rw [hremembered, ← hreasons]
      refine (hfound l).imp And.left fun hremembered => ⟨?_, hremembered.2⟩
      have hmem := hremembered.1
      obtain ⟨⟨k, c⟩, hx, rfl⟩ := List.mem_map.mp hmem
      exact (p.asked_refresh.literal? k).symm.trans (hfits k c hx).1
    · obtain ⟨x, hx, rfl⟩ := List.mem_map.mp (hbatch l hl)
      rw [hgiven, show q.topology = p.topology from htopology]
      exact htracked x hx
    · rw [hremembered]
      exact ((hfound l).resolve_left fun h => h.2 (hbatch l hl)).2

theorem explained_propagate (ht : p.topology.Tracks) :
    p.Explained p.propagate.1 p.propagate.2 := by
  have hnone : p.Explained none p :=
    ⟨rfl, fun _ => .inl rfl, fun l hl => .inl (hl.resolve_left (by simp))⟩
  unfold Propagator.propagate
  split
  · split
    · next batch hstatus =>
      have hpending : p.pending = batch := by rw [pending, hstatus]
      obtain ⟨htopology, hreasons, hbatch⟩ := p.explained_giveBatch batch
      split
      · next q hq =>
        obtain rfl := eq_of_giveBatch_none hq
        have hfound := explained_findBatch (p := { p with status := .idle }) ht rfl
        exact { hfound with
          given := fun l hl => .inr ((hfound.given l hl).resolve_left List.not_mem_nil) }
      · exact ⟨htopology, fun l => .inl (by rw [hreasons]),
          fun l hl => .inl (hpending ▸ hbatch l hl)⟩
    · next hidle => exact explained_findBatch ht (by rw [pending, hidle])
    · exact hnone
  · exact hnone

theorem reasons_decide [Coin ρ] (p : Propagator ρ) : p.decide.2.reasons = p.reasons := by
  have hfound : p.refresh.findDecision.2.reasons = p.reasons := by
    rw [findDecision_frame, refresh_frame]
  unfold Propagator.decide
  split
  · split <;> next hq => rwa [hq] at hfound
  · rfl

theorem reasons_reason {given : Option Literal} (h : p.reason l = .ok (given, q)) :
    q.reasons = p.reasons := by
  have hgiven (p : Propagator ρ) (s : ReasonStream) : (p.giveReason s).2.reasons = p.reasons := by
    unfold giveReason
    split <;> rfl
  unfold Propagator.reason at h
  split at h
  · next s _ =>
    have hgiven := hgiven p s
    rwa [Except.ok.inj h] at hgiven
  · split at h
    · cases h
    · next c _ =>
      have hcounted := hgiven { p with counters.reasons := p.counters.reasons + 1 } ⟨l, c, 0⟩
      rwa [Except.ok.inj h] at hcounted

theorem reasons_hasClause (p : Propagator ρ) : p.hasClause.2.reasons = p.reasons := by
  have hfound (queries : Nat) :
      ({ p with queries } : Propagator ρ).refresh.checkTwoBit.2.reasons = p.reasons := by
    rw [checkTwoBit_frame, refresh_frame]
  unfold Propagator.hasClause
  split
  · rfl
  · split
    · dsimp only
      split
      · rfl
      · split <;> next hq => simpa only [hq] using hfound (p.queries + 1)
    · rfl
  · rfl

theorem reasons_clause (p : Propagator ρ) : p.clause.2.reasons = p.reasons := by
  unfold Propagator.clause
  split
  · split <;> rfl
  · rfl

theorem reasons_answer [Coin ρ] {call : Call} {a : Answer} (hc : call.isQuestion = true)
    (hne : call ≠ .propagate) (h : p.answer call = .ok (a, q)) : q.reasons = p.reasons := by
  cases call with
  | assign | openLevel | backtrack => cases hc
  | propagate => exact (hne rfl).elim
  | model =>
    obtain ⟨-, rfl⟩ := Prod.mk.inj (Except.ok.inj h)
    rfl
  | decide =>
    obtain ⟨-, rfl⟩ := Prod.mk.inj (Except.ok.inj h)
    exact reasons_decide p
  | reason l =>
    obtain ⟨_, hr, -⟩ := reason_of_answer h
    exact reasons_reason hr
  | hasClause =>
    obtain ⟨-, rfl⟩ := Prod.mk.inj (Except.ok.inj h)
    exact reasons_hasClause p
  | clause =>
    obtain ⟨-, rfl⟩ := Prod.mk.inj (Except.ok.inj h)
    exact reasons_clause p

theorem explained_serve? [Coin ρ] (ht : p.topology.Tracks) (hb : p.isBuilt = true)
    (hr : r.isNotice = false) (hq : p.serve? r = some q) : ∃ given, p.Explained given q := by
  cases r with
  | entry name value =>
    rw [serve?_entry hb] at hq
    cases hq
  | rules lines =>
    obtain rfl := Option.some.inj hq
    exact ⟨none, rfl, fun _ => .inl rfl, fun l hl => .inl (hl.resolve_left nofun)⟩
  | call call =>
    have hquestion : call.isQuestion = true := by simpa [Request.isNotice] using hr
    simp only [serve?] at hq
    split at hq
    · next a q' ha =>
      obtain rfl := Option.some.inj hq
      by_cases hne : call = .propagate
      · subst hne
        obtain ⟨-, rfl⟩ := Prod.mk.inj (Except.ok.inj ha)
        exact ⟨_, explained_propagate ht⟩
      · exact ⟨none, .of_seen (seen_answer hquestion hne ha) (asked_answer hquestion ha).topology
          (reasons_answer hquestion hne ha)⟩
    · cases hq

variable [Coin ρ]

theorem Explains.serve? (h : p.Explains l) (ht : p.topology.Tracks) (hb : p.isBuilt = true)
    (hr : ∀ level, r ≠ .call (.backtrack level)) (hq : p.serve? r = some q) : q.Explains l := by
  rcases serve?_cases hb hq with ⟨hnotice, -⟩ | ⟨k, isFixed, rfl, rfl⟩ | ⟨rfl, rfl⟩ |
    ⟨level, rfl, -⟩
  · obtain ⟨given, hexplained⟩ := explained_serve? ht hb hnotice hq
    exact h.explained hexplained
  · rw [assign_frame]
    exact h
  · rw [openLevel_frame]
    exact h
  · exact (hr level rfl).elim

theorem Explains.follow? (h : p.Explains l) (ht : p.topology.Tracks) (hb : p.isBuilt = true)
    (hreturns : ∀ level, .call (.backtrack level) ∉ rs) (hq : p.follow? rs = some q) :
    q.Explains l := by
  suffices hrun : q.topology.Tracks ∧
      ((∀ level, .call (.backtrack level) ∉ rs) → q.Explains l) from hrun.2 hreturns
  refine follow?_induction (P := fun rs q => q.topology.Tracks ∧
    ((∀ level, .call (.backtrack level) ∉ rs) → q.Explains l)) hb ⟨ht, fun _ => h⟩ ?_ hq
  rintro rs r s q - hb ⟨ht, ih⟩ - hq
  refine ⟨topology_serve? hb hq ▸ ht, fun hreturns => ?_⟩
  simp only [List.mem_append, List.mem_singleton, not_or] at hreturns
  exact Explains.serve? (ih fun level => (hreturns level).1) ht hb
    (fun level => Ne.symm (hreturns level).2) hq

theorem explains_pending (h : Prepared config source start) (hb : start.isBuilt = true)
    (hq : start.follow? rs = some q) : ∀ l ∈ q.pending, q.Explains l := by
  suffices hrun : q.topology.Tracks ∧ ∀ l ∈ q.pending, q.Explains l from hrun.2
  refine follow?_induction (P := fun _ q => q.topology.Tracks ∧ ∀ l ∈ q.pending, q.Explains l)
    hb ?_ ?_ hq
  · obtain ⟨t, ht, columnCache, rfl⟩ := h.exists_eq
    exact ⟨ht, nofun⟩
  · rintro rs r p q - hb ⟨ht, ih⟩ - hq
    refine ⟨topology_serve? hb hq ▸ ht, fun l hl => ?_⟩
    rcases serve?_cases hb hq with ⟨hnotice, -⟩ | ⟨k, isFixed, rfl, rfl⟩ | ⟨rfl, rfl⟩ |
      ⟨level, rfl, rfl⟩
    · obtain ⟨given, hexplained⟩ := explained_serve? ht hb hnotice hq
      rcases hexplained.given l (.inr hl) with hpending | hexplains
      · exact (ih l hpending).explained hexplained
      · exact hexplains
    · rw [pending_assign] at hl
      exact Explains.serve? (ih l hl) ht hb (by simp) hq
    · rw [pending_openLevel] at hl
      exact Explains.serve? (ih l hl) ht hb (by simp) hq
    · cases hl

theorem explains_of_given (h : Prepared config source start) (hb : start.isBuilt = true)
    (hp : start.follow? rs = some p) (hl : p.propagate.1 = some l) : p.propagate.2.Explains l := by
  have ht : p.topology.Tracks := by
    obtain ⟨t, ht, columnCache, rfl⟩ := h.exists_eq
    rwa [(recorded_of_follow? h hb hp).topology]
  have hexplained := explained_propagate ht
  rcases hexplained.given l (.inl hl) with hpending | hexplains
  · exact (explains_pending h hb hp l hpending).explained hexplained
  · exact hexplains

-- ---------------------------------------------------------------------------
-- What a reason stands on
-- ---------------------------------------------------------------------------

/-- Whether a literal is on the trail and others are false by what is below it or fixed. -/
structure Backed (p : Propagator ρ) (l : Literal) (rest : Clause) : Prop where
  tracked : p.topology.tracked.contains l.atom = true
  free : p.valuation.fixed.contains l.atom = false
  below : ∃ below above, p.trail.toList = below ++ l :: above ∧
    ∀ k ∈ rest, k.negate ∈ below ∨ p.valuation.fixed.contains k.atom = true

omit [Coin ρ] in
theorem Recorded.literal?_of_mem (h : start.Recorded rs p) (hl : l ∈ p.trail.toList) :
    p.literal? l = some true := by
  rw [literal?_eq_some, (h.value l.atom l.polarity).mpr (.inl hl)]
  simp

omit [Coin ρ] in
theorem Recorded.value?_of_fixed (h : start.Recorded rs p) {a : Atom}
    (ha : p.valuation.fixed.contains a = true) : p.value? a ≠ none := by
  obtain ⟨htracked, v, hv⟩ := (h.fixed a).mp ha
  rw [(h.value a v).mpr (.inr ⟨htracked, hv⟩)]
  exact nofun

omit [Coin ρ] in
/-- A reason is kept while all its literals have a value. -/
theorem reason_backtrack (h : p.reasons[l]? = some c) (hl : l ∈ c)
    (hvalued : ∀ k ∈ c, ((p.backtrack level).literal? k).isSome = true) :
    (p.backtrack level).reasons[l]? = some c := by
  rw [reasons_backtrack, Std.TreeMap.getElem?_filter', Option.filter_eq_some_iff]
  exact ⟨h, Bool.and_eq_true_iff.mpr ⟨hvalued l hl, List.all_eq_true.mpr hvalued⟩⟩

omit [Coin ρ] in
/-- A reason speaks of nothing but what had a value before its literal. -/
theorem Recorded.backed (h : start.Recorded rs p) (hb : p.isBuilt = true)
    (ht : p.topology.tracked.contains l.atom = true)
    (hl : p.allows (.call (.assign l false)) = true)
    (hrest : ∀ k ∈ rest, p.literal? k = some false) : (p.assign l false).Backed l rest := by
  refine ⟨?_, ?_, p.trail.toList, [], ?_, fun k hk => ?_⟩
  · rw [topology_assign]
    exact ht
  · rw [Propagator.fixed_assign hb ht]
    refine Bool.eq_false_iff.mpr fun hfixed => h.value?_of_fixed hfixed ?_
    simpa [allows] using hl
  · rw [trail_toList_assign hb ht]
    rfl
  · rw [Propagator.fixed_assign hb ht]
    rcases (h.value _ _).mp (literal?_eq_some.mp (hrest k hk)) with hmem | ⟨ht, hmem⟩
    · left
      simpa [Literal.negate] using hmem
    · exact .inr ((h.fixed k.atom).mpr ⟨ht, _, hmem⟩)

omit [Coin ρ] in
theorem Backed.mem (h : p.Backed l rest) : l ∈ p.trail.toList := by
  obtain ⟨below, above, htrail, -⟩ := h.below
  rw [htrail]
  exact List.mem_append_right _ (.head _)

omit [Coin ρ] in
theorem Backed.valued (h : p.Backed l rest) (hrecorded : start.Recorded rs p) :
    ∀ k ∈ l :: rest, (p.literal? k).isSome = true := by
  intro k hk
  rcases List.mem_cons.mp hk with rfl | hk
  · rw [hrecorded.literal?_of_mem h.mem]
    rfl
  · obtain ⟨below, above, htrail, hbelow⟩ := h.below
    refine Option.isSome_iff_ne_none.mpr fun hnone => ?_
    have hnone : p.value? k.atom = none := literal?_eq_none.mp hnone
    rcases hbelow k hk with hmem | hfixed
    · have htrue := hrecorded.literal?_of_mem (htrail ▸ List.mem_append_left _ hmem)
      exact nomatch (literal?_eq_some.mp htrue).symm.trans hnone
    · exact hrecorded.value?_of_fixed hfixed hnone

omit [Coin ρ] in
theorem Backed.of_asked (h : p.Backed l rest) (hq : p.Asked q) : q.Backed l rest where
  tracked := hq.topology ▸ h.tracked
  free := hq.fixed ▸ h.free
  below := by
    rw [hq.trail, hq.fixed]
    exact h.below

omit [Coin ρ] in
theorem Backed.assign (h : p.Backed l rest) (hrecorded : start.Recorded rs p)
    (hb : p.isBuilt = true) {isFixed : Bool} (hk : p.allows (.call (.assign k isFixed)) = true)
    (hne : k = l → isFixed = false) : (p.assign k isFixed).Backed l rest := by
  cases ht : p.topology.tracked.contains k.atom with
  | false => rwa [assign_of_untracked ht]
  | true =>
    obtain ⟨below, above, htrail, hbelow⟩ := h.below
    refine ⟨?_, ?_, below, above ++ if isFixed then [] else [k], ?_, fun j hj => ?_⟩
    · rw [topology_assign]
      exact h.tracked
    · rw [Propagator.fixed_assign hb ht]
      cases isFixed with
      | false => exact h.free
      | true =>
        -- The atom of `l` has its value, so no literal of it but `l` could be fixed.
        refine Bool.eq_false_iff.mpr fun hfixed => ?_
        simp only [if_true, Std.TreeSet.contains_insert, Bool.or_eq_true, beq_iff_eq,
          Std.LawfulEqCmp.compare_eq_iff_eq, h.free, Bool.false_eq_true, or_false] at hfixed
        have hvalue := (hrecorded.value l.atom l.polarity).mpr (.inl h.mem)
        obtain ⟨-, hpolarity⟩ := polarity_of_allows hk (hfixed ▸ hvalue)
        cases hne (by rw [← show (⟨k.atom, k.polarity⟩ : Literal) = k from rfl, hfixed, ← hpolarity])
    · rw [trail_toList_assign hb ht, htrail]
      simp
    · refine (hbelow j hj).imp_right fun hfixed => ?_
      rw [Propagator.fixed_assign hb ht]
      cases isFixed <;> simp [hfixed]

omit [Coin ρ] in
theorem Backed.backtrack (h : p.Backed l rest)
    (hspared : (p.backtrack level).literal? l ≠ none) : (p.backtrack level).Backed l rest := by
  have hreturned := returned_backtrack p level
  obtain ⟨below, above, htrail, hbelow⟩ := h.below
  have hkept : l ∉ (p.trail.popTo level).1.reverse := by
    intro hmem
    refine hspared (literal?_eq_none.mpr ?_)
    rw [hreturned.value, if_pos]
    exact ⟨List.mem_map_of_mem (List.mem_reverse.mp hmem), h.tracked, h.free⟩
  refine ⟨hreturned.topology ▸ h.tracked, hreturned.fixed ▸ h.free, below, ?_⟩
  simp only [hreturned.fixed, hreturned.trail]
  suffices hcut : ∃ above', (p.trail.popTo level).2.toList = below ++ l :: above' from
    hcut.imp fun above' hcut => ⟨hcut, hbelow⟩
  rcases List.append_eq_append_iff.mp ((p.trail.toList_popTo level).trans htrail) with
    ⟨xs, -, hremoved⟩ | ⟨xs, hxs, hremoved⟩
  · rw [hremoved] at hkept
    exact (hkept (List.mem_append_right _ (.head _))).elim
  · cases xs with
    | nil =>
      rw [List.nil_append] at hremoved
      exact (hkept (hremoved ▸ .head _)).elim
    | cons x xs =>
      obtain ⟨rfl, -⟩ := List.cons.inj hremoved
      exact ⟨xs, hxs⟩

/-- A request that does not fix a literal or take back its value keeps its reason, with all
that this stands on. -/
theorem Backed.serve? (h : p.Backed l rest) (hreason : p.reasons[l]? = some (l :: rest))
    (hrecorded : start.Recorded rs p) (hb : p.isBuilt = true) (ht : p.topology.Tracks)
    (hr : p.allows r = true) (hfree : r ≠ .call (.assign l true))
    (hspared : ∀ level, r = .call (.backtrack level) → q.literal? l ≠ none)
    (hq : p.serve? r = some q) : q.Backed l rest ∧ q.reasons[l]? = some (l :: rest) := by
  rcases serve?_cases hb hq with ⟨hnotice, hasked⟩ | ⟨k, isFixed, rfl, rfl⟩ | ⟨rfl, rfl⟩ |
    ⟨level, rfl, rfl⟩
  · obtain ⟨given, hexplained⟩ := explained_serve? ht hb hnotice hq
    refine ⟨h.of_asked hasked, ?_⟩
    rw [(hexplained.reasons l).resolve_right fun hnone => ?_, hreason]
    exact nomatch (hrecorded.literal?_of_mem h.mem).symm.trans hnone.1
  · refine ⟨h.assign hrecorded hb hr fun hk => ?_, ?_⟩
    · subst hk
      exact Bool.eq_false_iff.mpr fun hfixed => hfree (hfixed ▸ rfl)
    · rw [assign_frame]
      exact hreason
  · rw [openLevel_frame]
    exact ⟨{ h with below := by simpa only [Trail.toList_push] using h.below }, hreason⟩
  · have hbacked := h.backtrack (hspared level rfl)
    exact ⟨hbacked, reason_backtrack hreason (.head _)
      (hbacked.valued (hrecorded.backtrack ht level))⟩

def Spares (p : Propagator ρ) (rs : List Request) (l : Literal) : Prop :=
  ∀ before later level q, rs = before ++ .call (.backtrack level) :: later →
    p.follow? (before ++ [.call (.backtrack level)]) = some q → q.literal? l ≠ none

theorem Spares.of_append {rs ss : List Request} (h : p.Spares (rs ++ ss) l) : p.Spares rs l :=
  fun before later level q heq => h before (later ++ ss) level q (by simp [heq])

theorem Backed.follow? (hstart : Prepared config source start) (hb : start.isBuilt = true)
    {before after : List Request} (hp : start.follow? before = some p) (h : p.Backed l rest)
    (hreason : p.reasons[l]? = some (l :: rest)) (hfree : .call (.assign l true) ∉ after)
    (hspared : p.Spares after l) (hq : p.follow? after = some q) :
    q.Backed l rest ∧ q.reasons[l]? = some (l :: rest) := by
  have htopology := (recorded_of_follow? hstart hb hp).topology
  have hbuilt : p.isBuilt = true := by rwa [isBuilt, htopology]
  refine follow?_induction (P := fun after q => .call (.assign l true) ∉ after →
    p.Spares after l → q.Backed l rest ∧ q.reasons[l]? = some (l :: rest)) hbuilt
    (fun _ _ => ⟨h, hreason⟩) ?_ hq hfree hspared
  intro after r s q hs hbuilt ih hr hq hfree hspared
  simp only [List.mem_append, List.mem_singleton, not_or] at hfree
  obtain ⟨hbacked, hreason⟩ := ih hfree.1 hspared.of_append
  have hrecorded : start.Recorded (before ++ after) s :=
    recorded_of_follow? hstart hb (by rw [follow?_append, hp]; exact hs)
  have ht : s.topology.Tracks := by
    obtain ⟨t, ht, columnCache, rfl⟩ := hstart.exists_eq
    rwa [hrecorded.topology]
  refine hbacked.serve? hreason hrecorded hbuilt ht hr (Ne.symm hfree.2) ?_ hq
  rintro level rfl
  exact hspared after [] level q rfl (follow?_concat.mpr ⟨s, hs, hr, hq⟩)

-- ---------------------------------------------------------------------------
-- Asking for a reason
-- ---------------------------------------------------------------------------

theorem converse_cons {call : Call} {calls : List Call} {a : Answer} {answers : List Answer}
    {s : Propagator ρ} (h : p.answer call = .ok (a, q)) (hq : q.converse calls = .ok (answers, s)) :
    p.converse (call :: calls) = .ok (a :: answers, s) := by
  simp [converse, h, hq, bind, Except.bind, pure, Except.pure]

omit [Coin ρ] in
theorem fst_giveReason (p : Propagator ρ) (s : ReasonStream) :
    (p.giveReason s).1 = s.clause[s.given]? := by
  unfold giveReason
  split <;> next heq => exact heq.symm

theorem answer_reason_of_stream {s : ReasonStream}
    (hs : p.stream.filter (·.literal == l) = some s) :
    p.answer (.reason l) = .ok (.literal s.clause[s.given]?, (p.giveReason s).2) := by
  simp only [answer, reason, hs, Except.map, ← fst_giveReason p]

/-- A reason that is being given is given to its end. -/
theorem converse_reason_of_stream {s : ReasonStream} {left : Clause}
    (hs : p.stream.filter (·.literal == l) = some s) (hleft : s.clause.drop s.given = left) :
    ∃ q, p.converse (List.replicate (left.length + 1) (.reason l)) =
      .ok ((left.map some ++ [none]).map .literal, q) := by
  induction left generalizing p s with
  | nil =>
    have hanswer := answer_reason_of_stream hs
    rw [List.getElem?_eq_none (List.drop_eq_nil_iff.mp hleft)] at hanswer
    exact ⟨_, converse_cons hanswer rfl⟩
  | cons k left ih =>
    have hk : s.clause[s.given]? = some k := by
      rw [← List.head?_drop, hleft]
      rfl
    have hnext : (p.giveReason s).2.stream.filter (·.literal == l) =
        some { s with given := s.given + 1 } := by
      obtain ⟨-, hl⟩ := Option.filter_eq_some_iff.mp hs
      simp [giveReason, hk, Option.filter, hl]
    have hanswer := answer_reason_of_stream hs
    rw [hk] at hanswer
    obtain ⟨q, hq⟩ := ih hnext (by rw [← List.tail_drop, hleft, List.tail_cons])
    exact ⟨q, converse_cons hanswer hq⟩

theorem converse_reason (hreason : p.reasons[l]? = some (k :: rest))
    (hstream : ∀ s, p.stream = some s → s.literal ≠ l) :
    ∃ q, p.converse (List.replicate (rest.length + 2) (.reason l)) =
      .ok (((k :: rest).map some ++ [none]).map .literal, q) := by
  have hnone : p.stream.filter (·.literal == l) = none := by
    rw [Option.filter_eq_none_iff]
    intro s hs
    simpa using hstream s hs
  have hanswer : p.answer (.reason l) = .ok (.literal (some k),
      { p with
        counters.reasons := p.counters.reasons + 1
        stream := some ⟨l, k :: rest, 1⟩ }) := by
    simp [answer, reason, hnone, hreason, giveReason, Except.map]
  obtain ⟨q, hq⟩ := converse_reason_of_stream (l := l) (s := ⟨l, k :: rest, 1⟩)
    (p := { p with
      counters.reasons := p.counters.reasons + 1
      stream := some ⟨l, k :: rest, 1⟩ }) (by simp [Option.filter])
    (show (k :: rest).drop 1 = rest from rfl)
  exact ⟨q, converse_cons hanswer hq⟩

/-- A literal that was given and then notified has a reason until it loses its value, though
the host may return in between. The host is given the whole of it: the literal, others that
were false before it was notified and have been since, and the end. -/
theorem reason_lasts (hstart : Prepared config source start) (hb : start.isBuilt = true)
    {before between : List Request} (hp : start.follow? before = some p)
    (hl : p.propagate.1 = some l) (hreturns : ∀ level, .call (.backtrack level) ∉ between)
    (hq : p.propagate.2.follow? between = some q)
    (hnotified : q.allows (.call (.assign l false)) = true) :
    ∃ rest : Clause, (∀ k ∈ rest, q.literal? k = some false) ∧
      ∀ (after : List Request) (s : Propagator ρ), .call (.assign l true) ∉ after →
        (q.assign l false).Spares after l → (q.assign l false).follow? after = some s →
        (∀ k ∈ rest, s.literal? k = some false) ∧
          ((∀ stream, s.stream = some stream → stream.literal ≠ l) →
            ∃ s', s.converse (List.replicate (rest.length + 2) (.reason l)) =
              .ok (((l :: rest).map some ++ [none]).map .literal, s')) := by
  have hasked : start.follow? (before ++ [.call .propagate]) = some p.propagate.2 :=
    follow?_concat.mpr ⟨p, hp, rfl, rfl⟩
  have hfound : start.follow? (before ++ [.call .propagate] ++ between) = some q := by
    rw [follow?_append, hasked]
    exact hq
  have htold : start.follow? (before ++ [.call .propagate] ++ between ++
      [.call (.assign l false)]) = some (q.assign l false) :=
    follow?_concat.mpr ⟨q, hfound, hnotified, rfl⟩
  have ht : start.topology.Tracks := by
    obtain ⟨t, ht, columnCache, rfl⟩ := hstart.exists_eq
    exact ht
  have htopology := (recorded_of_follow? hstart hb hasked).topology
  have hrecorded := recorded_of_follow? hstart hb hfound
  have hbuilt : q.isBuilt = true := by rwa [isBuilt, hrecorded.topology]
  have hexplains : q.Explains l := (explains_of_given hstart hb hp hl).follow?
    (by rwa [htopology]) (by rwa [isBuilt, htopology]) hreturns hq
  obtain ⟨c, hc⟩ := Option.isSome_iff_exists.mp hexplains.2
  obtain ⟨rest, rfl, -, hrest⟩ := (justified_of_follow? hstart hb hfound).reasons l c hc
  refine ⟨rest, hrest, fun after s hfree hspared hs => ?_⟩
  have hreason : (q.assign l false).reasons[l]? = some (l :: rest) := by
    rw [assign_frame]
    exact hc
  obtain ⟨-, hkept⟩ := (hrecorded.backed hbuilt hexplains.1 hnotified hrest).follow? hstart hb
    htold hreason hfree hspared hs
  refine ⟨?_, converse_reason hkept⟩
  have hend : start.follow? (before ++ [.call .propagate] ++ between ++
      [.call (.assign l false)] ++ after) = some s := by
    rw [follow?_append, htold]
    exact hs
  obtain ⟨rest', heq, -, hfalse⟩ := (justified_of_follow? hstart hb hend).reasons l _ hkept
  obtain ⟨-, rfl⟩ := List.cons.inj heq
  exact hfalse

/-- The host takes a literal, decides another one and returns to the level before. -/
theorem reason_lasts_sample :
    let calls : List Call := [.openLevel, .assign ⟨25, false⟩ false, .assign ⟨3, false⟩ false]
    let after : List Call := [.openLevel, .assign ⟨5, true⟩ false, .backtrack 1]
    ∃ (start p q s : Propagator Pcg) (rest : Clause),
      Prepared { encoding := .li2024, wordSize := 1 } (.ofSeed 0) start ∧
      start.isBuilt = true ∧ start.follow? (calls.map .call) = some p ∧
      p.propagate.1 = some ⟨21, false⟩ ∧ p.propagate.2.follow? [.call .hasClause] = some q ∧
      (q.assign ⟨21, false⟩ false).follow? (after.map .call) = some s ∧
      ∃ s', s.converse (List.replicate (rest.length + 2) (.reason ⟨21, false⟩)) =
        .ok ((((⟨21, false⟩ : Literal) :: rest).map some ++ [none]).map .literal, s') := by
  intro calls after
  have hserved : ((new { encoding := .li2024, wordSize := 1 } (Pcg.ofSeed 0)).serveAll?
      (sampleRequests [])).bind (fun start => (start.follow? (calls.map .call)).bind fun p =>
        (p.propagate.2.follow? [.call .hasClause]).bind fun q =>
        ((q.assign ⟨21, false⟩ false).follow? (after.map .call)).map fun s =>
          (start.isBuilt, p.propagate.1, q.allows (.call (.assign ⟨21, false⟩ false)),
            s.literal? ⟨21, false⟩, s.stream)) =
      some (true, some ⟨21, false⟩, true, some true, none) := by decide +kernel
  obtain ⟨start, hstart, hserved⟩ := Option.bind_eq_some_iff.mp hserved
  obtain ⟨p, hp, hserved⟩ := Option.bind_eq_some_iff.mp hserved
  obtain ⟨q, hq, hserved⟩ := Option.bind_eq_some_iff.mp hserved
  obtain ⟨s, hs, hresult⟩ := Option.map_eq_some_iff.mp hserved
  simp only [Prod.mk.injEq] at hresult
  obtain ⟨hb, hl, hnotified, hvalued, hstream⟩ := hresult
  have hprepared := Prepared.fresh.of_serveAll? (by decide +kernel) hstart
  have hspares : (q.assign ⟨21, false⟩ false).Spares (after.map .call) ⟨21, false⟩ := by
    intro before later level u heq hu
    have hreturn : before ++ [.call (.backtrack level)] = after.map .call := by
      simp only [after, List.map_cons, List.map_nil, List.cons_eq_append_iff] at heq
      rcases heq with ⟨-, h⟩ | ⟨_, rfl, ⟨-, h⟩ | ⟨_, rfl, ⟨rfl, h⟩ | ⟨_, -, h⟩⟩⟩
      · cases h
      · cases h
      · cases h
        rfl
      · simp at h
    rw [hreturn] at hu
    rw [Option.some.inj (hu.symm.trans hs), hvalued]
    exact nofun
  obtain ⟨rest, -, hlasts⟩ := reason_lasts hprepared hb hp hl (by simp) hq hnotified
  obtain ⟨-, hgiven⟩ := hlasts (after.map .call) s (by simp [after]) hspares hs
  exact ⟨start, p, q, s, rest, hprepared, hb, hp, hl, hq, hs, hgiven (by simp [hstream])⟩

end Propagator

end ShaDiff
