import ShaDiff.Proofs.Propagator.Batch
import ShaDiff.Proofs.Propagator.Examined
import ShaDiff.Proofs.Solver
import ShaDiff.Proofs.Transcript

/-!
# What a backtrack leaves pending

A backtrack discards what was found and not yet given, and marks only what it refines. So a
column may force a literal after it and not be marked. Then the column was propagated, on
conditions that were no weaker, and had a conflict, or found the literal, or the literal held
already and was found by nobody. None of this happens to a solver that opens a level only where
propagation has come to its end and returns below the level it is at.
-/

namespace ShaDiff.Propagator

variable {ρ : Type} {config : Config} {source : ρ} {entries : List (String × Int)}
  {p q r : Propagator ρ} {calls : List Call} {answers : List Answer} {u : Site} {o : Operation}

-- ---------------------------------------------------------------------------
-- Columns on record
-- ---------------------------------------------------------------------------

theorem Ready.of_mem_columnsInTurns (h : p.Ready False) {turns : Nat}
    (hr : (u, r) ∈ columnsInTurns turns p) : r.Ready False ∧ r.topology = p.topology := by
  induction turns generalizing p with
  | zero => cases hr
  | succ turns ih =>
    have hbelow := h.marks.nextColumn
    unfold columnsInTurns at hr
    split at hr
    · cases hr
    · next v marks htaken =>
      rw [htaken] at hbelow
      have hready : ({ p with marks } : Propagator ρ).Ready False := { h with marks := hbelow.2 }
      rcases List.mem_cons.mp hr with heq | hr
      · obtain ⟨rfl, rfl⟩ := Prod.mk.inj heq
        exact ⟨hready, rfl⟩
      · have hfinds := hready.finds_propagateColumn (hbelow.1 v rfl)
        split at hr
        · next q hq =>
          rw [hq] at hfinds
          obtain ⟨hr, htopology⟩ := ih hfinds.ready hr
          exact ⟨hr, htopology.trans hfinds.topology⟩
        · cases hr

theorem Sound.of_mem_searchedBy (h : p.Sound False) {c : Call}
    (hr : (u, r) ∈ p.searchedBy columnsSearched c) : r.Ready False ∧ r.topology = p.topology := by
  unfold searchedBy at hr
  split at hr
  · cases hr
  · next s hs =>
    split at hr
    · next hc =>
      subst hc
      have htopology := (refreshes?_frame hs).2.1
      obtain ⟨hb, hgiven⟩ := refreshes?_propagate hs
      have hbuilt : p.topology.order ≠ none := Option.isSome_iff_ne_none.mp hb
      have hsound : s.Sound False := by
        rcases hgiven with rfl | ⟨batch, rfl⟩
        · exact h
        · exact h.giveBatch hbuilt batch
      have hready := hsound.ready_refresh (htopology ▸ hbuilt)
      obtain ⟨hr, hsame⟩ := hready.of_mem_columnsInTurns hr
      exact ⟨hr, hsame.trans (s.asked_refresh.topology.trans htopology)⟩
    · cases hr

variable [Coin ρ]

theorem Sound.of_mem_searchedIn (h : p.Sound False)
    (hr : (u, r) ∈ p.searchedIn columnsSearched calls) :
    r.Ready False ∧ r.topology = p.topology := by
  induction calls generalizing p with
  | nil => cases hr
  | cons c calls ih =>
    rcases List.mem_append.mp hr with hr | hr
    · exact h.of_mem_searchedBy hr
    · split at hr
      · next q hc =>
        obtain ⟨hready, htopology⟩ := ih (h.answer hc) hr
        exact ⟨hready, htopology.trans (answer_frame hc).2⟩
      · cases hr

-- ---------------------------------------------------------------------------
-- After a backtrack
-- ---------------------------------------------------------------------------

omit [Coin ρ] in
theorem Started.columnForces (h : p.Started config)
    (ho : p.topology.operations[u.operation]? = some o) (htopology : q.topology = p.topology)
    (hweaker : ∀ b ∈ p.topology.inputBits o u.column ++ p.topology.outputBits o u.column,
      (p.condition b).subset (q.condition b) = true) : q.ColumnForces o u.column [] := by
  obtain ⟨order, hbuilt⟩ := exists_order h.attentive.sound (Option.isSome_iff_ne_none.mp h.built)
  rw [← htopology] at ho hweaker hbuilt
  refine columnForces_free (fun b hb hz => ?_) hbuilt (Array.mem_of_getElem? ho)
  have hfresh : p.freshCondition b = .any := Topology.conditionOf_of_none h.value b
  have hrelaxed := Condition.subset_trans (h.attentive.relaxed b hz) (hweaker b hb)
  rw [hfresh] at hrelaxed
  have hany := Condition.subset_iff.mpr fun x (_ : (q.condition b).allows x = true) =>
    Condition.allows_any x
  exact Condition.subset_antisymm hany hrelaxed

/-- Whether a column was propagated on something that allowed no more than is allowed now, and
there had a conflict, or else found each literal that it forces now and that did not hold
there already. -/
def Foretold (r q : Propagator ρ) (u : Site) (o : Operation) : Prop :=
  (∀ b ∈ q.topology.inputBits o u.column ++ q.topology.outputBits o u.column,
    (r.condition b).subset (q.condition b) = true) ∧
  (r.propagateColumn u).1.Leaves fun ls => ∃ outcome, q.outcome? o u.column = some outcome ∧
    ∀ l ∈ q.columnLiterals o (q.topology.inputBits o u.column)
      (q.topology.outputBits o u.column) outcome, l ∈ ls ∨ r.Implies l

/-- A column that is contradictory or forces a literal without value after a backtrack is
marked, or it was propagated before and had a conflict then, or the literal was found or held
already. A solver that opens a level only where propagation has come to its end and returns
below the level it is at leaves no such column. -/
theorem pending_after_backtrack (hn : config.wordSize ≤ wordSizeMax)
    (hp : (new config source).serveAll? (entryRequests entries) = some p)
    (hb : p.isBuilt = true) :
    (∀ {calls : List Call} {answers : List Answer} {q : Propagator ρ},
      p.converse calls = .ok (answers, q) → ∀ (level : Nat) (u : Site) o,
      q.topology.operations[u.operation]? = some o → u.column < q.topology.wordSize →
      ¬ (q.backtrack level).ColumnForces o u.column [] →
      (q.backtrack level).marks.marked.contains u = true ∨
      ∃ r : Propagator ρ, (u, r) ∈ p.searchedIn columnsSearched calls ∧
        lastAt (p.searchedIn columnsSearched calls) u p = r ∧
        r.Foretold (q.backtrack level) u o) ∧
    ∀ {calls : List Call} {s : Solver ρ}, Solver.run? { propagator := p } calls = some s →
      ∀ level < s.propagator.trail.level, ∀ o ∈ s.propagator.topology.operations,
      ∀ j < s.propagator.topology.wordSize, (s.propagator.backtrack level).ColumnForces o j [] := by
  have hstarted := started_of_entries hn hp hb
  refine ⟨fun {calls answers q} hq level u o ho hu hpending => ?_,
    fun {calls s} hrun level hlevel => ?_⟩
  · have hsame : q.topology = p.topology :=
      converse_induction (P := fun q => q.topology = p.topology)
        (fun h hc => (answer_frame hc).2.trans h) rfl hq
    have htopology := (returned_backtrack q level).topology
    have hindexed := hstarted.attentive.indexed
    have hawake : Awake (fun u => lastAt (p.searchedIn columnsSearched calls) u p) _
        (q.backtrack level) :=
      ((awake_start p).converse hindexed hq).answer (hsame ▸ hindexed) (c := .backtrack level) rfl
    refine Classical.or_iff_not_imp_left.mpr fun hunmarked => ?_
    have hweaker := hawake.column u o (htopology ▸ ho) (htopology ▸ hu)
      (Bool.eq_false_iff.mpr hunmarked)
    -- What is on record is compared with what it was propagated on, and all else with the
    -- start, where nothing is known.
    rcases lastAt_mem_or (p.searchedIn columnsSearched calls) u p with hr | hnever
    · obtain ⟨hready, hr'⟩ := hstarted.attentive.sound.of_mem_searchedIn hr
      have hback := htopology.trans (hsame.trans hr'.symm)
      refine ⟨_, hr, rfl, hweaker, (hready.columnForces u).imp fun ls hls => ?_⟩
      rw [hback] at hweaker
      exact (hls o (hr' ▸ hsame ▸ ho)).implies (hr' ▸ hstarted.attentive.sound.tracks)
        hready.reflects hback hweaker
    · rw [hnever, htopology.trans hsame] at hweaker
      exact absurd (hstarted.columnForces (hsame ▸ ho) (htopology.trans hsame) hweaker) hpending
  · have hsteady := (Solver.Steady.of_started hstarted).run? hrun
    rw [← (returned_backtrack s.propagator level).topology]
    exact (hsteady.levels level hlevel).column

/-- A literal is found, and the batch is discarded by a return to the same level. A solver that
takes it and returns to the level below leaves nothing that is forced. -/
theorem pending_after_backtrack_sample :
    let calls : List Call :=
      [.openLevel, .assign ⟨25, false⟩ false, .assign ⟨3, false⟩ false, .propagate]
    let taken : List Call := .propagate :: calls ++ [.assign ⟨21, false⟩ false]
    ∃ (p : Propagator Pcg) (answers : List Answer) (q : Propagator Pcg) (o : Operation)
      (s : Solver Pcg),
      (new { encoding := .li2024, wordSize := 1 } (.ofSeed 0)).serveAll?
        (entryRequests Topology.sampleEntries) = some p ∧ p.isBuilt = true ∧
      p.converse calls = .ok (answers, q) ∧ q.topology.operations[5]? = some o ∧
      ¬ (q.backtrack 1).ColumnForces o 0 [] ∧
      (q.backtrack 1).marks.marked.contains ⟨5, 0⟩ = false ∧
      (∃ r, (⟨5, 0⟩, r) ∈ p.searchedIn columnsSearched calls ∧
        r.Foretold (q.backtrack 1) ⟨5, 0⟩ o) ∧
      Solver.run? { propagator := p } taken = some s ∧ s.propagator.trail.level = 1 ∧
      ∀ o ∈ s.propagator.topology.operations, (s.propagator.backtrack 0).ColumnForces o 0 [] := by
  intro calls taken
  have hserved : ((new { encoding := .li2024, wordSize := 1 } (Pcg.ofSeed 0)).serveAll?
      (entryRequests Topology.sampleEntries)).map (fun p =>
        (p.converse calls).map fun (_, q) =>
          q.topology.operations[5]?.bind fun o =>
            ((q.backtrack 1).outcome? o 0).map fun outcome =>
              ([p.isBuilt, q.topology.wordSize == 1,
                  (q.backtrack 1).marks.marked.contains ⟨5, 0⟩],
                (q.backtrack 1).columnLiterals o ((q.backtrack 1).topology.inputBits o 0)
                  ((q.backtrack 1).topology.outputBits o 0) outcome)) =
      some (.ok (some ([true, true, false], [⟨21, false⟩, ⟨22, false⟩]))) := by decide +kernel
  have hdriven : ((new { encoding := .li2024, wordSize := 1 } (Pcg.ofSeed 0)).serveAll?
      (entryRequests Topology.sampleEntries)).bind (fun p =>
        (Solver.run? { propagator := p } taken).map fun s =>
          (s.propagator.topology.wordSize, s.propagator.trail.level)) = some (1, 1) := by
    decide +kernel
  obtain ⟨p, hp, hserved⟩ := Option.map_eq_some_iff.mp hserved
  obtain ⟨⟨answers, q⟩, hq, hserved⟩ := exists_of_map_eq_ok hserved
  obtain ⟨o, ho, hserved⟩ := Option.bind_eq_some_iff.mp hserved
  obtain ⟨outcome, houtcome, hresult⟩ := Option.map_eq_some_iff.mp hserved
  rw [hp, Option.bind_some] at hdriven
  obtain ⟨s, hs, hlevels⟩ := Option.map_eq_some_iff.mp hdriven
  simp only [Prod.mk.injEq, List.cons.injEq, beq_iff_eq, and_true] at hresult hlevels
  obtain ⟨⟨hb, hsize, hunmarked⟩, hforced⟩ := hresult
  obtain ⟨hsize', hlevel⟩ := hlevels
  have hforces : ¬ (q.backtrack 1).ColumnForces o 0 [] := by
    rintro ⟨outcome', houtcome', hall⟩
    obtain rfl := Option.some.inj (houtcome.symm.trans houtcome')
    exact nomatch hall ⟨21, false⟩ (hforced ▸ .head _)
  obtain ⟨hany, hsolver⟩ := pending_after_backtrack (by decide) hp hb
  have hpending := hany hq 1 ⟨5, 0⟩ o ho (hsize ▸ Nat.one_pos) hforces
  obtain ⟨r, hr, -, hforetold⟩ := hpending.resolve_left (Bool.eq_false_iff.mp hunmarked)
  exact ⟨p, answers, q, o, s, hp, hb, hq, ho, hforces, hunmarked, ⟨r, hr, hforetold⟩, hs, hlevel,
    fun o ho => hsolver hs 0 (hlevel ▸ Nat.one_pos) o ho 0 (hsize' ▸ Nat.one_pos)⟩

/-- A column forces a literal and is not marked after a return to the same level, nor after one
from a level on which the literal had its value and all was propagated. -/
theorem forces_unmarked_sample :
    let assigned : List Call := [.openLevel, .assign ⟨25, false⟩ false, .assign ⟨3, false⟩ false]
    ∀ calls ∈ [assigned ++ [.propagate],
      assigned ++ [.openLevel, .assign ⟨21, false⟩ false, .propagate]],
    ∃ (p q : Propagator Pcg) (o : Operation) (outcome : Column.Outcome),
      (new { encoding := .li2024, wordSize := 1 } (.ofSeed 0)).serveAll?
        (entryRequests Topology.sampleEntries) = some p ∧ p.isBuilt = true ∧
      p.follow? (calls.map .call) = some q ∧
      (q.backtrack 1).topology.operations[5]? = some o ∧
      (q.backtrack 1).outcome? o 0 = some outcome ∧
      ⟨21, false⟩ ∈ (q.backtrack 1).columnLiterals o ((q.backtrack 1).topology.inputBits o 0)
        ((q.backtrack 1).topology.outputBits o 0) outcome ∧
      (q.backtrack 1).value? 21 = none ∧ (q.backtrack 1).marks.marked.contains ⟨5, 0⟩ = false := by
  intro assigned calls hcalls
  have hserved : ∀ calls ∈ [assigned ++ [.propagate],
      assigned ++ [.openLevel, .assign ⟨21, false⟩ false, .propagate]],
      ((new { encoding := .li2024, wordSize := 1 } (Pcg.ofSeed 0)).serveAll?
        (entryRequests Topology.sampleEntries)).bind (fun p =>
          (p.follow? (calls.map .call)).bind fun q =>
            (q.backtrack 1).topology.operations[5]?.bind fun o =>
              ((q.backtrack 1).outcome? o 0).map fun outcome => (p.isBuilt,
                (q.backtrack 1).columnLiterals o ((q.backtrack 1).topology.inputBits o 0)
                  ((q.backtrack 1).topology.outputBits o 0) outcome,
                (q.backtrack 1).value? 21, (q.backtrack 1).marks.marked.contains ⟨5, 0⟩)) =
      some (true, [⟨21, false⟩, ⟨22, false⟩], none, false) := by decide +kernel
  obtain ⟨p, hp, hserved⟩ := Option.bind_eq_some_iff.mp (hserved calls hcalls)
  obtain ⟨q, hq, hserved⟩ := Option.bind_eq_some_iff.mp hserved
  obtain ⟨o, ho, hserved⟩ := Option.bind_eq_some_iff.mp hserved
  obtain ⟨outcome, houtcome, hresult⟩ := Option.map_eq_some_iff.mp hserved
  simp only [Prod.mk.injEq] at hresult
  obtain ⟨hb, hforced, hnone, hunmarked⟩ := hresult
  exact ⟨p, q, o, outcome, hp, hb, hq, ho, houtcome, hforced ▸ .head _, hnone, hunmarked⟩

end ShaDiff.Propagator
