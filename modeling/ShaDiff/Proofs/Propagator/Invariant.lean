import ShaDiff.Dialogue
import ShaDiff.Proofs.Propagator.TwoBit
import ShaDiff.Propagator.Configure

/-!
# What every request preserves

A propagator is sound if its topology came from accepted entries, its conditions mirror
the valuation, what it remembers was found by propagation, and all that it holds for the
host is entailed (`Sound`). An accepted entry, a rule database and every call of the
host preserve that. Before the topology is built nothing is learned (`Fresh`), so nothing
has to be entailed by a topology that still grows.
-/

namespace ShaDiff.Propagator

variable {ρ : Type} {rules : Prop} {p q : Propagator ρ}

structure Fresh (p : Propagator ρ) : Prop where
  value : ∀ a, p.value? a = none
  condition : ∀ b : Bit, b.isZero = false → p.condition b = .any
  columnEquations : ∀ s : Site, p.columnEquations[s]? = none
  sumEquations : ∀ sum : Nat, p.sumEquations[sum]? = none
  reasons : ∀ l : Literal, p.reasons[l]? = none
  status : p.status = .idle

/-- What holds between two requests. Reasons and blocking clauses are entailed unless
rules were read. -/
structure Sound (rules : Prop) (p : Propagator ρ) : Prop where
  tracks : p.topology.Tracks
  open_or_built : p.topology.Open ∨ ∃ order, p.topology.Built order
  wordSize_le : p.topology.wordSize ≤ wordSizeMax
  fresh : p.topology.order = none → p.Fresh
  mirrors : p.topology.Mirrors p.valuation p.characteristic
  marks : p.marks.Below p.topology.wordSize
  columnCache : p.columnCache.All (ColumnKey.Answers rules)
  sumCache : p.sumCache.All (SumKey.Answers p.topology.wordSize)
  columnEquations : p.topology.ValidatesAll p.columnEquations
  sumEquations : p.topology.ValidatesAll p.sumEquations
  reasons : ¬ rules → ∀ (l : Literal) c, p.reasons[l]? = some c → p.topology.Entails c
  blocking : ¬ rules → ∀ c given, p.status = .blocking c given → p.topology.Entails c

theorem Sound.booked (h : p.Sound rules) {trail : Trail} {stream : Option ReasonStream}
    {queries : Nat} {counters : Counters} {source : ρ} :
    { p with trail, stream, queries, counters, source }.Sound rules :=
  { h with fresh := fun hnone => { h.fresh hnone with } }

-- ---------------------------------------------------------------------------
-- Entries and rules
-- ---------------------------------------------------------------------------

theorem Fresh.sound (h : p.Fresh) (ht : p.topology.Tracks)
    (ho : p.topology.Open ∨ ∃ order, p.topology.Built order)
    (hn : p.topology.wordSize ≤ wordSizeMax) (hl : p.valuation.Listed)
    (hm : p.marks.Below p.topology.wordSize)
    (hcc : p.columnCache.All (ColumnKey.Answers rules))
    (hsc : p.sumCache.All (SumKey.Answers p.topology.wordSize)) : p.Sound rules where
  tracks := ht
  open_or_built := ho
  wordSize_le := hn
  fresh _ := h
  mirrors := .of_none hl h.value h.condition
  marks := hm
  columnCache := hcc
  sumCache := hsc
  columnEquations s _ hes := nomatch (h.columnEquations s).symm.trans hes
  sumEquations sum _ hes := nomatch (h.sumEquations sum).symm.trans hes
  reasons _ l _ hc := nomatch (h.reasons l).symm.trans hc
  blocking _ _ _ hc := nomatch h.status.symm.trans hc

theorem sound_new {config : Config} (h : config.wordSize ≤ wordSizeMax) (source : ρ) :
    (new config source).Sound rules := by
  have hsane := Topology.sane_initial config.encoding config.wordSize
  have hfresh : (new config source).Fresh := by
    refine ⟨fun a => ?_, fun b hb => ?_, fun s => ?_, fun sum => ?_, fun l => ?_, rfl⟩
    · simp [new, value?, Valuation.value?, Valuation.empty]
    · simp [new, condition, Characteristic.get, Characteristic.empty, hb]
    · simp [new]
    · simp [new]
    · simp [new]
  refine hfresh.sound hsane.tracks hsane.open_or_built h (fun b => ?_) (Marks.below_empty _)
    (Cache.all_empty _) (Cache.all_empty _)
  simp [new, Valuation.empty]

theorem Sound.configure (h : p.Sound rules) {name : String} {value : Int}
    (hc : p.configure name value = .ok (.ok (), q)) : q.Sound rules := by
  simp only [Propagator.configure, bind, Except.bind] at hc
  split at hc
  · cases hc
  · rename_i entered henter
    obtain ⟨result, t⟩ := entered
    simp only [pure, Except.pure, Except.ok.injEq, Prod.mk.injEq] at hc
    obtain ⟨rfl, rfl⟩ := hc
    have hfresh := h.fresh (Topology.enter_ok henter).1
    have hsane := Topology.Sane.enter ⟨rfl, rfl, h.tracks, h.open_or_built⟩ henter
    have hvaluation : (∀ a, (if p.isBuilt || !t.isBuilt then p.valuation else .empty).value? a =
        none) ∧ (if p.isBuilt || !t.isBuilt then p.valuation else .empty).Listed := by
      split
      · exact ⟨hfresh.value, h.mirrors.listed⟩
      · exact ⟨fun a => by simp [Valuation.value?, Valuation.empty],
          fun b => by simp [Valuation.empty]⟩
    refine Fresh.sound { hfresh with value := hvaluation.1 } hsane.tracks hsane.open_or_built ?_
      hvaluation.2 ?_ h.columnCache ?_
    · exact hsane.wordSize_eq ▸ h.wordSize_le
    · exact hsane.wordSize_eq ▸ h.marks
    · exact hsane.wordSize_eq ▸ h.sumCache

/-- A rule database may be wrong, but it has no relations. -/
theorem Sound.readRules (h : p.Sound True) (lines : List Text.Line) :
    (p.readRules lines).2.Sound True :=
  { h with
    fresh := fun hnone => { h.fresh hnone with }
    columnCache := Rule.all_load h.columnCache 0 fun _ _ r _ => r.answers }

-- ---------------------------------------------------------------------------
-- Refreshing
-- ---------------------------------------------------------------------------

theorem Sound.columnsBelow (h : p.Sound rules) :
    Topology.ColumnsBelow p.topology.wordSize p.topology.readers := by
  rcases h.open_or_built with hopen | ⟨order, hbuilt⟩
  · rw [hopen.readers]
    intro b s hs
    simp at hs
  · exact hbuilt.readers

theorem below_markReaders {size : Nat} (hr : Topology.ColumnsBelow size p.topology.readers)
    (h : p.marks.Below size) (b : Bit) : (p.markReaders b).marks.Below size := by
  have hsites (sites : List Site) (hs : ∀ s ∈ sites, s.column < size) {m : Marks}
      (hm : m.Below size) : (sites.foldl .markColumn m).Below size := by
    induction sites generalizing m with
    | nil => exact hm
    | cons s sites ih =>
      exact ih (fun u hu => hs u (.tail _ hu)) (hm.markColumn (hs s (.head _)))
  have hsums (sums : List Nat) {m : Marks} (hm : m.Below size) :
      (sums.foldl .markSum m).Below size := by
    induction sums generalizing m with
    | nil => exact hm
    | cons sum sums ih => exact ih (hm.markSum sum)
  exact hsums _ (hsites _ (hr b) h)

theorem below_foldl_refreshBit {size : Nat}
    (hr : Topology.ColumnsBelow size p.topology.readers) (h : p.marks.Below size)
    (bits : List Bit) : (bits.foldl refreshBit p).marks.Below size := by
  induction bits generalizing p with
  | nil => exact h
  | cons b bits ih =>
    refine ih (by rw [refreshBit_frame]; exact hr) ?_
    unfold refreshBit
    dsimp only
    split
    · exact h
    · split
      · exact h
      · exact below_markReaders (p := { p with characteristic := _ }) hr h b

theorem Sound.refresh (h : p.Sound rules) : p.refresh.Sound rules := by
  have hreflects := reflects_refresh h.mirrors
  have hmirrors := mirrors_refresh h.mirrors
  have hmarks : p.refresh.marks.Below p.topology.wordSize :=
    below_foldl_refreshBit (p := { p with valuation := p.valuation.takeDirty.2 }) h.columnsBelow
      h.marks p.valuation.takeDirty.1
  rw [refresh_frame] at hreflects hmirrors ⊢
  refine { h with mirrors := hmirrors, marks := hmarks, fresh := fun hnone => ?_ }
  have hfresh := h.fresh hnone
  refine { hfresh with condition := fun b hb => (hreflects b hb).trans ?_ }
  exact Topology.conditionOf_of_none hfresh.value b

-- ---------------------------------------------------------------------------
-- Notifications
-- ---------------------------------------------------------------------------

theorem Sound.assign (h : p.Sound rules) (l : Literal) (isFixed : Bool) :
    (p.assign l isFixed).Sound rules := by
  unfold Propagator.assign
  split
  · rename_i hb
    have hbuilt : p.topology.order ≠ none :=
      Option.isSome_iff_ne_none.mp (Bool.and_eq_true_iff.mp hb).1
    refine { h with mirrors := ?_, fresh := fun hnone => absurd hnone hbuilt }
    dsimp only
    split
    · exact (h.mirrors.setFixed l.atom true).assign h.tracks l
    · exact h.mirrors.assign h.tracks l
  · exact h

theorem Sound.setIdle (h : p.Sound rules) : { p with status := .idle }.Sound rules :=
  { h with
    fresh := fun hnone => { h.fresh hnone with status := rfl }
    blocking := fun _ _ _ hc => nomatch hc }

theorem Sound.openLevel (h : p.Sound rules) : p.openLevel.Sound rules := by
  have hpushed : { p with trail := p.trail.push }.Sound rules := h.booked
  unfold Propagator.openLevel
  dsimp only
  split
  · exact hpushed.setIdle
  · exact hpushed

theorem Sound.backtrack (h : p.Sound rules) (level : Nat) : (p.backtrack level).Sound rules := by
  unfold Propagator.backtrack
  dsimp only
  have hpopped : { p with
      trail := (p.trail.popTo level).2
      valuation := (p.trail.popTo level).1.foldl
        (fun v (l : Literal) => (v.unassign p.topology.tracked l.atom).2)
        p.valuation }.Sound rules :=
    { h with
      fresh := fun hnone => { h.fresh hnone with
        value := fun a => Valuation.value?_foldl_unassign ((h.fresh hnone).value a) _ _ }
      mirrors := h.mirrors.foldl_unassign h.tracks _ }
  have hidle := hpopped.refresh.setIdle
  -- Only reasons that were there already are kept.
  exact { hidle with
    fresh := fun hnone => { hidle.fresh hnone with
      reasons := fun l => Option.eq_none_iff_forall_ne_some.mpr fun c hc =>
        nomatch ((hidle.fresh hnone).reasons l).symm.trans (getElem?_of_filter hc) }
    reasons := fun hrules l c hc => hidle.reasons hrules l c (getElem?_of_filter hc) }

-- ---------------------------------------------------------------------------
-- Questions
-- ---------------------------------------------------------------------------

theorem Sound.setStatus (h : p.Sound rules) (hb : p.topology.order ≠ none) {s : Status}
    (hs : ¬ rules → ∀ c given, s = .blocking c given → p.topology.Entails c) :
    { p with status := s }.Sound rules :=
  { h with fresh := fun hnone => absurd hnone hb, blocking := hs }

theorem findDecision_frame [Coin ρ] (p : Propagator ρ) :
    p.findDecision.2 = { p with source := p.findDecision.2.source } := by
  unfold findDecision
  split
  · rfl
  · split
    · rfl
    · dsimp only
      split <;> rfl

theorem Sound.findDecision [Coin ρ] (h : p.Sound rules) : p.findDecision.2.Sound rules := by
  rw [findDecision_frame]
  exact h.booked

theorem Sound.decide [Coin ρ] (h : p.Sound rules) : p.decide.2.Sound rules := by
  have hfound := h.refresh.findDecision
  unfold Propagator.decide
  split
  · rename_i hb
    simp only [Bool.and_eq_true] at hb
    have hbuilt : p.refresh.findDecision.2.topology.order ≠ none := by
      rw [findDecision_frame, refresh_frame]
      exact Option.isSome_iff_ne_none.mp hb.1.1
    split
    · rename_i q hq
      rw [hq] at hfound
      exact hfound
    · rename_i l q hq
      rw [hq] at hfound hbuilt
      exact (hfound.setStatus (s := .deciding l) hbuilt fun _ _ _ hc => nomatch hc).booked
  · exact h

theorem Sound.giveBatch (h : p.Sound rules) (hb : p.topology.order ≠ none)
    (batch : List Literal) : (p.giveBatch batch).2.Sound rules := by
  unfold Propagator.giveBatch
  split
  · exact h.setIdle
  · rename_i l rest _
    exact (h.setStatus (s := .propagating rest) hb fun _ _ _ hc => nomatch hc).booked

/-- What propagation leaves behind is sound. -/
theorem Sound.of_finds (h : p.Sound rules) {found : Finding × Propagator ρ}
    (hf : p.Finds rules found) : found.2.Sound rules where
  tracks := hf.topology ▸ h.tracks
  open_or_built := .inr hf.ready.built
  wordSize_le := hf.ready.wordSize_le
  fresh hnone := by
    obtain ⟨order, hbuilt⟩ := hf.ready.built
    exact nomatch hbuilt.order_eq.symm.trans hnone
  mirrors := by
    rw [hf.topology, hf.valuation, hf.characteristic]
    exact h.mirrors
  marks := hf.ready.marks
  columnCache := hf.ready.columnCache
  sumCache := hf.ready.sumCache
  columnEquations := hf.ready.columnEquations
  sumEquations := hf.ready.sumEquations
  reasons := by
    rw [hf.topology, hf.reasons]
    exact h.reasons
  blocking := by
    rw [hf.topology, hf.status]
    exact h.blocking

theorem exists_order (h : p.Sound rules) (hb : p.topology.order ≠ none) :
    ∃ order, p.topology.Built order :=
  h.open_or_built.resolve_left fun hopen => hb hopen.order

theorem Sound.ready_refresh (h : p.Sound rules) (hb : p.topology.order ≠ none) :
    p.refresh.Ready rules := by
  have hsound := h.refresh
  have htopology : p.refresh.topology = p.topology := by rw [refresh_frame]
  exact { hsound with
    built := exists_order hsound (htopology ▸ hb)
    reflects := reflects_refresh h.mirrors }

theorem mem_of_getElem?_insertAll {ls : List (Literal × Clause)}
    {reasons : Std.TreeMap Literal Clause} {l : Literal} {c : Clause}
    (h : (ls.foldl (fun rs (l, reason) => rs.insert l reason) reasons)[l]? = some c) :
    (l, c) ∈ ls ∨ reasons[l]? = some c := by
  induction ls generalizing reasons with
  | nil => exact .inr h
  | cons x ls ih =>
    rcases ih h with hmem | hold
    · exact .inl (.tail _ hmem)
    · rw [Std.TreeMap.getElem?_insert] at hold
      split at hold
      · rename_i heq
        obtain rfl := Std.LawfulEqCmp.compare_eq_iff_eq.mp heq
        obtain rfl := Option.some.inj hold
        exact .inl (.head _)
      · exact .inr hold

theorem Sound.findBatch (h : p.Sound rules) (hb : p.topology.order ≠ none) :
    p.findBatch.2.Sound rules := by
  have hr := h.refresh
  have htopology : p.refresh.topology = p.topology := by rw [refresh_frame]
  have hfinds := (h.ready_refresh hb).finds_findPropagation
  have hfound := hr.of_finds hfinds
  have hbuilt : p.refresh.findPropagation.2.topology.order ≠ none := by
    rw [hfinds.topology, htopology]
    exact hb
  have hentailed := hfinds.entailed
  rw [← hfinds.topology] at hentailed
  unfold Propagator.findBatch
  split
  · rename_i q hq
    rw [hq] at hfound
    exact hfound
  · rename_i c q hq
    rw [hq] at hfound hbuilt hentailed
    refine hfound.setStatus hbuilt fun hrules c' given heq => ?_
    obtain ⟨rfl, -⟩ := Status.blocking.inj heq
    exact hentailed hrules
  · rename_i ls q hq
    rw [hq] at hfound hbuilt hentailed
    have hkept : { q with
        reasons := ls.foldl (fun rs (l, reason) => rs.insert l reason) q.reasons }.Sound rules := by
      refine { hfound with fresh := fun hnone => absurd hnone hbuilt, reasons := ?_ }
      intro hrules l c hc
      rcases mem_of_getElem?_insertAll hc with hmem | hold
      · exact hentailed hrules l c hmem
      · exact hfound.reasons hrules l c hold
    exact hkept.giveBatch hbuilt _

theorem Sound.propagate (h : p.Sound rules) : p.propagate.2.Sound rules := by
  unfold Propagator.propagate
  split
  · rename_i hb
    have hbuilt : p.topology.order ≠ none := Option.isSome_iff_ne_none.mp hb
    split
    · rename_i batch _
      have hgiven := h.giveBatch hbuilt batch
      have htopology : (p.giveBatch batch).2.topology = p.topology := by
        unfold Propagator.giveBatch
        split <;> rfl
      split
      · rename_i q hq
        rw [hq] at hgiven htopology
        exact hgiven.findBatch (by rw [htopology]; exact hbuilt)
      · exact hgiven
    · exact h.findBatch hbuilt
    · exact h
  · exact h

theorem Sound.giveReason (h : p.Sound rules) (s : ReasonStream) :
    (p.giveReason s).2.Sound rules := by
  unfold Propagator.giveReason
  split
  · exact h.booked
  · exact h.booked

theorem Sound.reason (h : p.Sound rules) {l : Literal} {k : Option Literal}
    (hr : p.reason l = .ok (k, q)) : q.Sound rules := by
  unfold Propagator.reason at hr
  split at hr
  · rename_i s _
    have hq := h.giveReason s
    rw [Except.ok.inj hr] at hq
    exact hq
  · split at hr
    · cases hr
    · rename_i clause _
      have hcounted : { p with counters.reasons := p.counters.reasons + 1 }.Sound rules := h.booked
      have hq := hcounted.giveReason ⟨l, clause, 0⟩
      rw [Except.ok.inj hr] at hq
      exact hq

theorem Sound.validates (h : p.Sound rules) : ∀ e ∈ p.equations, p.topology.Validates e :=
  validates_equations h.columnEquations h.sumEquations

theorem Sound.checkTwoBit (h : p.Sound rules) : p.checkTwoBit.2.Sound rules := by
  rw [checkTwoBit_frame]
  exact h.booked

theorem Sound.hasClause (h : p.Sound rules) : p.hasClause.2.Sound rules := by
  unfold Propagator.hasClause
  split
  · exact h
  · split
    · rename_i hb
      have hasked : { p with queries := p.queries + 1 }.Sound rules := h.booked
      have hchecked := hasked.refresh.checkTwoBit
      have hentails := fun c => entails_checkTwoBit (c := c) hasked.refresh.validates
      have htopology : { p with queries := p.queries + 1 }.refresh.checkTwoBit.2.topology =
          p.topology := by
        rw [checkTwoBit_frame, refresh_frame]
      have hrefreshed : { p with queries := p.queries + 1 }.refresh.topology = p.topology := by
        rw [refresh_frame]
      dsimp only
      split
      · exact hasked
      · split
        · rename_i c q hq
          rw [hq] at hchecked hentails htopology
          have hbuilt : q.topology.order ≠ none :=
            htopology ▸ Option.isSome_iff_ne_none.mp hb
          have hc : q.topology.Entails c := by
            rw [htopology, ← hrefreshed]
            exact hentails c rfl
          refine hchecked.setStatus hbuilt fun _ c' given heq => ?_
          obtain ⟨rfl, -⟩ := Status.blocking.inj heq
          exact hc
        · rename_i q hq
          rw [hq] at hchecked
          exact hchecked
    · exact h
  · exact h

theorem Sound.clause (h : p.Sound rules) : p.clause.2.Sound rules := by
  unfold Propagator.clause
  split
  · rename_i c given hstatus
    split
    · refine { h with
        fresh := fun hnone => nomatch (h.fresh hnone).status.symm.trans hstatus
        blocking := fun hrules c' given' heq => ?_ }
      obtain ⟨rfl, -⟩ := Status.blocking.inj heq
      exact h.blocking hrules c given hstatus
    · exact h.setIdle
  · exact h

-- ---------------------------------------------------------------------------
-- Calls
-- ---------------------------------------------------------------------------

theorem Sound.answer [Coin ρ] (h : p.Sound rules) {c : Call} {a : Answer}
    (ha : p.answer c = .ok (a, q)) : q.Sound rules := by
  cases c with
  | assign l isFixed =>
    obtain ⟨-, rfl⟩ := Prod.mk.inj (Except.ok.inj ha)
    exact h.assign l isFixed
  | openLevel =>
    obtain ⟨-, rfl⟩ := Prod.mk.inj (Except.ok.inj ha)
    exact h.openLevel
  | backtrack level =>
    obtain ⟨-, rfl⟩ := Prod.mk.inj (Except.ok.inj ha)
    exact h.backtrack level
  | model ls =>
    obtain ⟨-, rfl⟩ := Prod.mk.inj (Except.ok.inj ha)
    exact h
  | decide =>
    obtain ⟨-, rfl⟩ := Prod.mk.inj (Except.ok.inj ha)
    exact h.decide
  | propagate =>
    obtain ⟨-, rfl⟩ := Prod.mk.inj (Except.ok.inj ha)
    exact h.propagate
  | reason l =>
    obtain ⟨_, hr, -⟩ := reason_of_answer ha
    exact h.reason hr
  | hasClause =>
    obtain ⟨-, rfl⟩ := Prod.mk.inj (Except.ok.inj ha)
    exact h.hasClause
  | clause =>
    obtain ⟨-, rfl⟩ := Prod.mk.inj (Except.ok.inj ha)
    exact h.clause

end ShaDiff.Propagator
