import ShaDiff.Host
import ShaDiff.Proofs.Confluence
import ShaDiff.Proofs.Reasons
import ShaDiff.Proofs.Recall
import ShaDiff.Proofs.Topology.Steps
import ShaDiff.Proofs.Tracking

/-!
# Draining ends

A host drains a propagator by asking for literals and notifying each as it is given, until
there is no more. What is pending when it begins may have got a value since, and then to
notify it leaves no atom less to be given, but it is pending no longer. A batch that is found
on the way is about different atoms, none with a value (`batch_findBatch`), so each of its
literals takes one from the atoms that are free. However often a literal marks its columns
again, there are no more literals than were pending and atoms that were free (`exists_gives`).
No values have to be right for that, so it holds after calls in any order.
-/

namespace ShaDiff

/-- Whether what was found, if it is no conflict, is about different atoms. -/
def Finding.Apart (found : Finding) : Prop :=
  found.Leaves fun ls => ls.Pairwise (·.atom ≠ ·.atom)

namespace Propagator

variable {ρ : Type} {config : Config} {source : ρ} {p q : Propagator ρ} {l : Literal}
  {ls : List Literal} {answer : Option Literal}

/-- Runs of a host that notifies what it is given, never as fixed, with the literals in the
order in which they are given. -/
inductive Gives : Propagator ρ → List Literal → Propagator ρ → Prop
  | last {p q : Propagator ρ} : p.propagate = (none, q) → Gives p [] q
  | next {p q r : Propagator ρ} {l : Literal} {ls : List Literal} : p.propagate = (some l, q) →
      Gives (q.assign l false) ls r → Gives p (l :: ls) r

structure Drainable (p : Propagator ρ) : Prop where
  recalls : p.Recalls
  tracks : p.topology.Tracks
  distinct : p.topology.Distinct

-- ---------------------------------------------------------------------------
-- What is found
-- ---------------------------------------------------------------------------

theorem pairwise_regions (e : Encoding) :
    e.regions.Pairwise fun r s => r.slot = s.slot → r.polarity ≠ s.polarity := by
  cases e <;> decide

theorem pairwise_forced (ht : p.topology.Tracks) (b : Bit) (c : Condition) :
    (p.forced b c).Pairwise (·.atom ≠ ·.atom) := by
  have hdistinct : (p.encoding.forced (p.topology.slots b) c).Pairwise fun l k =>
      l.atom = k.atom → l.polarity ≠ k.polarity := by
    unfold Encoding.forced
    split
    · exact .nil
    · refine List.pairwise_filterMap.mpr (((pairwise_regions p.encoding).filter _).imp ?_)
      intro r s hrs l hl k hk hatom
      rw [← polarity_of_literal? hl, ← polarity_of_literal? hk]
      exact hrs (eq_of_atom ht hl hk hatom).2
  have hforced : (p.forced b c).Pairwise fun l k => l.atom = k.atom → l.polarity ≠ k.polarity := by
    unfold forced
    split
    · exact .nil
    · exact hdistinct.filter _
  refine hforced.imp_of_mem fun hl hk hne hatom => hne hatom ?_
  rw [eq_of_mem_forced ht hl hk hatom]

theorem pairwise_firstForced (ht : p.topology.Tracks) (bits : List (Bit × Condition)) :
    (p.firstForced bits).Pairwise (·.atom ≠ ·.atom) := by
  induction bits with
  | nil => exact .nil
  | cons x bits ih =>
    unfold firstForced
    split
    · exact ih
    · exact pairwise_forced ht x.1 x.2

theorem apart_propagateColumn (h : p.Drainable) (s : Site) : (p.propagateColumn s).1.Apart := by
  cases ho : p.topology.operations[s.operation]? with
  | none =>
    unfold propagateColumn
    dsimp only
    rw [ho]
    exact .nil
  | some o =>
    obtain ⟨columnCache, -, heq⟩ := h.recalls.propagateColumn_eq ho
    rw [heq]
    unfold concludeColumn
    dsimp only
    split
    · exact leaves_contradiction (p := { p with columnCache, counters := _ }) fun _ => .nil
    · next outcome houtcome =>
      refine leaves_withReasons ?_ _
      exact pairwise_columnLiterals h.distinct h.tracks (Array.mem_of_getElem? ho) houtcome

theorem apart_propagateSum (ht : p.topology.Tracks) (sum : Nat) : (p.propagateSum sum).1.Apart := by
  unfold propagateSum
  split
  · exact .nil
  · dsimp only
    split
    · exact .nil
    · exact leaves_contradiction (p := { p with sumCache := _ }) fun _ => .nil
    · split
      · exact .nil
      · refine leaves_withReasons (pairwise_firstForced ?_ _) _
        rw [(kept_keepSumEquations _ sum _ _ _).topology]
        exact ht

theorem Drainable.of_asked (h : p.Drainable) (hasked : p.Asked q) (hq : q.Recalls) : q.Drainable :=
  ⟨hq, hasked.topology ▸ h.tracks, hasked.topology ▸ h.distinct⟩

theorem apart_findPropagation (h : p.Drainable) : p.findPropagation.1.Apart := by
  refine (findPropagation_invariant (I := Drainable) h (fun q marks hq => ?_) .nil
    (fun q s hq => ?_) fun q sum hq => ?_).1
  · exact ⟨hq.recalls.of_eq rfl rfl rfl, hq.tracks, hq.distinct⟩
  · exact ⟨apart_propagateColumn hq s, hq.of_asked (kept_propagateColumn q s).asked
      ((Twins.refl hq.recalls).propagateColumn s).2.left⟩
  · exact ⟨apart_propagateSum hq.tracks sum, hq.of_asked (kept_propagateSum q sum).asked
      ((Twins.refl hq.recalls).propagateSum sum).2.left⟩

-- ---------------------------------------------------------------------------
-- What is given
-- ---------------------------------------------------------------------------

theorem Batch.of_sublist (h : p.Batch ls) (hasked : p.Asked q) {ls' : List Literal}
    (hsublist : ls'.Sublist ls) : q.Batch ls' where
  free l hl := (hasked.literal? l).trans (h.free l (hsublist.subset hl))
  tracked l hl := hasked.topology ▸ h.tracked l (hsublist.subset hl)
  apart := h.apart.sublist hsublist

theorem batch_findBatch (h : p.Drainable) (hq : p.findBatch = (some l, q)) :
    q.Batch (l :: q.pending) := by
  have hfits := fits_findPropagation p.refresh
  have hkept := kept_findPropagation p.refresh
  have hrefreshed := h.of_asked p.asked_refresh (Twins.refl h.recalls).refresh.left
  have htracked := tracked_findPropagation hrefreshed.tracks
  have hapart := apart_findPropagation hrefreshed
  unfold findBatch at hq
  split at hq
  · cases hq
  · cases hq
  · next found q' hfound =>
    rw [hfound] at hfits hkept htracked hapart
    cases found with
    | nil => exact absurd rfl hapart.1
    | cons x found =>
      have hfree (k : Literal) (hk : k ∈ (x :: found).map Prod.fst) :
          q'.literal? k = none ∧ q'.topology.tracked.contains k.atom = true := by
        obtain ⟨y, hy, rfl⟩ := List.mem_map.mp hk
        rw [literal?, hkept.valuation, hkept.topology]
        exact ⟨(hfits y.1 y.2 hy).1, htracked y hy⟩
      have hopen (reasons : Std.TreeMap Literal Clause) :
          ({ q' with reasons } : Propagator ρ).literal? x.1 = none := (hfree x.1 (.head _)).1
      rw [List.map_cons, giveBatch_of_none (hopen _)] at hq
      obtain ⟨hl, rfl⟩ := Prod.mk.inj hq
      obtain rfl := Option.some.inj hl
      exact ⟨fun k hk => (hfree k hk).1, fun k hk => (hfree k hk).2, hapart.2⟩

/-- A literal that is given is one of those that were pending, and those after it are left, or
it is the first of a batch. -/
theorem Drainable.given (h : p.Drainable) (hq : p.propagate = (some l, q)) :
    (∃ dropped, p.pending = dropped ++ l :: q.pending) ∨ q.Batch (l :: q.pending) := by
  unfold Propagator.propagate at hq
  split at hq
  · split at hq
    · next batch hstatus =>
      have hpending : p.pending = batch := by rw [pending, hstatus]
      split at hq
      · next p' hgiven =>
        obtain rfl := eq_of_giveBatch_none hgiven
        have hidle : ({ p with status := .idle } : Propagator ρ).Drainable :=
          ⟨h.recalls.of_eq rfl rfl rfl, h.tracks, h.distinct⟩
        exact .inr (batch_findBatch hidle hq)
      · unfold giveBatch at hq
        split at hq
        · cases hq
        · next k rest hdrop =>
          obtain ⟨hk, rfl⟩ := Prod.mk.inj hq
          obtain rfl := Option.some.inj hk
          refine .inl ⟨batch.takeWhile fun l => p.literal? l == some true, ?_⟩
          rw [hpending, show Propagator.pending _ = rest from rfl, ← hdrop,
            List.takeWhile_append_dropWhile]
    · exact .inr (batch_findBatch h hq)
    · cases hq
  · cases hq

theorem isBuilt_of_propagate (hq : p.propagate = (some l, q)) : q.isBuilt = true := by
  rw [(asked_of_propagate hq).isBuilt]
  unfold Propagator.propagate at hq
  split at hq
  · next hb => exact hb
  · cases hq

theorem Drainable.assign (h : p.Drainable) (l : Literal) (isFixed : Bool) :
    (p.assign l isFixed).Drainable := by
  have htopology := p.topology_assign l isFixed
  refine ⟨h.recalls.of_eq ?_ ?_ htopology, htopology ▸ h.tracks, htopology ▸ h.distinct⟩
  · rw [assign_frame]
    rfl
  · rw [assign_frame]

theorem Drainable.next (h : p.Drainable) (hq : p.propagate = (answer, q)) (l : Literal) :
    (q.assign l false).Drainable := by
  have hrecalls := (Twins.refl h.recalls).propagate.2.left
  rw [hq] at hrecalls
  exact (h.of_asked (asked_of_propagate hq) hrecalls).assign l false

-- ---------------------------------------------------------------------------
-- Free atoms
-- ---------------------------------------------------------------------------

/-- To notify a literal frees no atom. -/
theorem length_freeAtoms_assign_le (hb : p.isBuilt = true) (l : Literal) (isFixed : Bool) :
    (p.assign l isFixed).freeAtoms.length ≤ p.freeAtoms.length := by
  cases ht : p.topology.tracked.contains l.atom with
  | true =>
    rw [freeAtoms_assign hb ht]
    exact List.length_filter_le _ _
  | false => simp [assign_of_untracked ht]

/-- To notify the first literal of a batch takes one of the free atoms, and leaves a batch. -/
theorem Batch.next (h : p.Batch (l :: p.pending)) (hb : p.isBuilt = true) :
    (p.assign l false).Batch (p.assign l false).pending ∧
      (p.assign l false).freeAtoms.length < p.freeAtoms.length := by
  rw [pending_assign]
  exact ⟨h.assign hb false,
    length_freeAtoms_assign hb (h.tracked l (.head _)) (h.free l (.head _)) false⟩

theorem length_freeAtoms_le (p : Propagator ρ) :
    p.freeAtoms.length ≤ p.topology.tracked.size := by
  refine Nat.le_trans (List.length_filter_le _ _) (Nat.le_of_eq ?_)
  exact Std.TreeMap.length_keys

-- ---------------------------------------------------------------------------
-- Runs
-- ---------------------------------------------------------------------------

/-- Where a batch is pending, each literal that is given takes one of the free atoms. -/
theorem Drainable.exists_gives_of_batch (h : p.Drainable) (hbatch : p.Batch p.pending) :
    ∃ ls q, Gives p ls q ∧ ls.length ≤ p.freeAtoms.length := by
  induction hn : p.freeAtoms.length using Nat.strongRecOn generalizing p with
  | ind n ih =>
    cases hq : p.propagate with
    | mk answer q =>
      cases answer with
      | none => exact ⟨[], q, .last hq, Nat.zero_le _⟩
      | some l =>
        have hasked := asked_of_propagate hq
        have hgiven : q.Batch (l :: q.pending) := by
          rcases h.given hq with ⟨dropped, hpending⟩ | hfound
          · refine hbatch.of_sublist hasked ?_
            rw [hpending]
            exact List.sublist_append_right _ _
          · exact hfound
        obtain ⟨hleft, hless⟩ := hgiven.next (isBuilt_of_propagate hq)
        rw [hasked.freeAtoms, hn] at hless
        obtain ⟨ls, r, hgives, hle⟩ := ih _ hless (h.next hq l) hleft rfl
        exact ⟨l :: ls, r, .next hq hgives, Nat.succ_le_of_lt (Nat.lt_of_le_of_lt hle hless)⟩

theorem Drainable.exists_gives (h : p.Drainable) :
    ∃ ls q, Gives p ls q ∧ ls.length ≤ p.pending.length + p.freeAtoms.length := by
  induction hn : p.pending.length using Nat.strongRecOn generalizing p with
  | ind n ih =>
    cases hq : p.propagate with
    | mk answer q =>
      cases answer with
      | none => exact ⟨[], q, .last hq, Nat.zero_le _⟩
      | some l =>
        have hfree := (asked_of_propagate hq).freeAtoms
        have hbuilt := isBuilt_of_propagate hq
        rcases h.given hq with ⟨dropped, hpending⟩ | hgiven
        · have hless : (q.assign l false).pending.length < n := by
            rw [pending_assign, ← hn, hpending, List.length_append, List.length_cons]
            omega
          obtain ⟨ls, r, hgives, hle⟩ := ih _ hless (h.next hq l) rfl
          have hfewer := length_freeAtoms_assign_le hbuilt l false
          rw [hfree] at hfewer
          exact ⟨l :: ls, r, .next hq hgives, by rw [List.length_cons]; omega⟩
        · obtain ⟨hleft, hless⟩ := hgiven.next hbuilt
          obtain ⟨ls, r, hgives, hle⟩ := (h.next hq l).exists_gives_of_batch hleft
          rw [hfree] at hless
          exact ⟨l :: ls, r, .next hq hgives, by rw [List.length_cons]; omega⟩

theorem Gives.propagateAllIn (h : Gives p ls q) {turns : Nat} (hlt : ls.length < turns) :
    propagateAllIn turns p = (ls, q) := by
  induction h generalizing turns with
  | last hq =>
    obtain ⟨turns, rfl⟩ := Nat.exists_eq_succ_of_ne_zero (Nat.ne_zero_of_lt hlt)
    simp [Propagator.propagateAllIn, hq]
  | next hq _ ih =>
    obtain ⟨turns, rfl⟩ := Nat.exists_eq_succ_of_ne_zero (Nat.ne_zero_of_lt hlt)
    simp [Propagator.propagateAllIn, hq, ih (Nat.lt_of_succ_lt_succ hlt)]

theorem propagateAll_eq (p : Propagator ρ) :
    p.propagateAll = propagateAllIn (p.pending.length + 2 * p.topology.tracked.size + 1) p := by
  unfold propagateAll pending
  cases p.status <;> rfl

-- ---------------------------------------------------------------------------
-- Requests
-- ---------------------------------------------------------------------------

variable [Coin ρ] {requests : List Request} {replies : List Reply}

theorem distinct_of_replyAll (hp : (new config source).replyAll requests = .ok (replies, p)) :
    p.topology.Distinct := by
  have hentered : p.topology.Stepped ∨ p.isBuilt = true ∧ p.topology.Distinct := by
    refine replyAll_induction
      (P := fun p => p.topology.Stepped ∨ p.isBuilt = true ∧ p.topology.Distinct) (fun h hr => ?_)
      (.inl (Topology.stepped_initial config.encoding config.wordSize)) hp
    rcases topology_reply hr with hsame | ⟨name, value, result, henter⟩
    · rwa [isBuilt, hsame]
    · rcases h with hstepped | ⟨hbuilt, hdistinct⟩
      · exact hstepped.enter henter
      · rw [Topology.enter_of_isBuilt hbuilt] at henter
        obtain ⟨-, hsame⟩ := Prod.mk.inj (Except.ok.inj henter)
        rw [isBuilt, ← hsame]
        exact .inr ⟨hbuilt, hdistinct⟩
  exact hentered.elim Topology.Stepped.distinct And.right

theorem drainable_of_replyAll (hrules : ∀ r ∈ requests, r.isRules = false)
    (hp : (new config source).replyAll requests = .ok (replies, p)) : p.Drainable := by
  have hreached := (Twins.refl (recalls_new config source)).replyAll hrules
  rw [hp] at hreached
  obtain ⟨_, -, hagree⟩ := hreached.of_ok
  exact ⟨hagree.2.left, (placed_of_replyAll hp).tracks, distinct_of_replyAll hp⟩

/-- Without rules draining ends, whatever was requested before, entries that were rejected and
notices that contradict each other included. No more literals are given than were pending and
tracked atoms had no value when it began, so the bound on its turns is never met. -/
theorem draining_ends (hrules : ∀ r ∈ requests, r.isRules = false)
    (hp : (new config source).replyAll requests = .ok (replies, p)) :
    ∃ ls q, Gives p ls q ∧ ls.length ≤ p.pending.length + p.freeAtoms.length ∧
      p.propagateAll = (ls, q) := by
  obtain ⟨ls, q, hgives, hle⟩ := (drainable_of_replyAll hrules hp).exists_gives
  refine ⟨ls, q, hgives, hle, ?_⟩
  have hsize := p.length_freeAtoms_le
  rw [propagateAll_eq]
  exact hgives.propagateAllIn (by omega)

/-- A literal is pending though its negation was notified, and is given all the same. -/
theorem draining_ends_sample :
    let requests := sampleRequests [.assign ⟨25, false⟩ false, .assign ⟨3, false⟩ false,
      .propagate, .assign ⟨22, true⟩ false]
    ∃ (replies : List Reply) (p q : Propagator Pcg) (ls : List Literal),
      (new { encoding := .li2024, wordSize := 1 } (.ofSeed 0)).replyAll requests =
        .ok (replies, p) ∧
      p.isBuilt = true ∧ p.pending = [⟨22, false⟩] ∧ p.value? 22 = some true ∧
      Gives p ls q ∧ ls.length ≤ p.pending.length + p.freeAtoms.length ∧
      p.propagateAll = (ls, q) ∧ ls = [⟨22, false⟩, ⟨21, false⟩] := by
  intro requests
  have hrules : ∀ r ∈ requests, r.isRules = false := by decide +kernel
  have hreplied : ((new { encoding := .li2024, wordSize := 1 } (Pcg.ofSeed 0)).replyAll
      requests).map (fun (_, p) => (p.isBuilt, p.pending, p.value? 22, p.propagateAll.1)) =
      .ok (true, [⟨22, false⟩], some true, [⟨22, false⟩, ⟨21, false⟩]) := by decide +kernel
  obtain ⟨⟨replies, p⟩, hp, hresult⟩ := exists_of_map_eq_ok hreplied
  simp only [Prod.mk.injEq] at hresult
  obtain ⟨hb, hpending, hvalue, hgiven⟩ := hresult
  obtain ⟨ls, q, hgives, hle, hall⟩ := draining_ends hrules hp
  rw [hall] at hgiven
  exact ⟨replies, p, q, ls, hp, hb, hpending, hvalue, hgives, hle, hall, hgiven⟩

end Propagator

end ShaDiff
