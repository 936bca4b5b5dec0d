import ShaDiff.Proofs.Propagator.Refreshing

/-!
# What was propagated last

A record of a run lists each column that is propagated, with the propagator it is propagated
on, and each sum likewise. A column or sum loses its mark only as it is propagated, and a
refresh marks all that read a bit it refines. So the bits of what is not marked allow all that
they allowed when it was last propagated (`Awake`), however often conditions were refined and
relaxed since.
-/

namespace ShaDiff

section

variable {α β : Type} [DecidableEq α] {key k : α} {start x : β}

def lastAt (record : List (α × β)) (key : α) (start : β) : β :=
  record.foldl (fun last (k, x) => if k = key then x else last) start

theorem lastAt_cons (record : List (α × β)) :
    lastAt ((k, x) :: record) key start = lastAt record key (if k = key then x else start) := rfl

theorem lastAt_append (record later : List (α × β)) :
    lastAt (record ++ later) key start = lastAt later key (lastAt record key start) :=
  List.foldl_append

theorem lastAt_mem_or (record : List (α × β)) (key : α) (start : β) :
    (key, lastAt record key start) ∈ record ∨ lastAt record key start = start := by
  induction record generalizing start with
  | nil => exact .inr rfl
  | cons entry record ih =>
    obtain ⟨k, x⟩ := entry
    rw [lastAt_cons]
    rcases ih (if k = key then x else start) with hmem | heq
    · exact .inl (.tail _ hmem)
    · rw [heq]
      split
      · next hk => exact .inl (hk ▸ .head _)
      · exact .inr rfl

end

namespace Propagator

variable {ρ : Type} {p q r : Propagator ρ} {columns : Site → Propagator ρ}
  {sums : Nat → Propagator ρ} {b : Bit}

-- ---------------------------------------------------------------------------
-- Records
-- ---------------------------------------------------------------------------

def columnsInTurns : (turns : Nat) → Propagator ρ → List (Site × Propagator ρ)
  | 0, _ => []
  | turns + 1, p =>
    match p.marks.nextColumn with
    | (none, _) => []
    | (some u, marks) => (u, { p with marks }) ::
      match { p with marks }.propagateColumn u with
      | (.nothing, q) => columnsInTurns turns q
      | _ => []

def sumsInTurns : (turns : Nat) → Propagator ρ → List (Nat × Propagator ρ)
  | 0, _ => []
  | turns + 1, p =>
    match p.marks.nextSum with
    | (none, _) => []
    | (some i, marks) => (i, { p with marks }) ::
      match { p with marks }.propagateSum i with
      | (.nothing, q) => sumsInTurns turns q
      | _ => []

def columnsSearched (p : Propagator ρ) : List (Site × Propagator ρ) :=
  columnsInTurns (p.marks.marked.size + 1) p

def sumsSearched (p : Propagator ρ) : List (Nat × Propagator ρ) :=
  match propagateColumns (p.marks.marked.size + 1) p with
  | (.nothing, q) => if q.config.wordwise then sumsInTurns q.marks.sums.length q else []
  | _ => []

/-- What the search of a call records, if the call comes to one. -/
def searchedBy {α : Type} (record : Propagator ρ → List (α × Propagator ρ)) (p : Propagator ρ)
    (c : Call) : List (α × Propagator ρ) :=
  match p.refreshes? c with
  | none => []
  | some s => if c = .propagate then record s.refresh else []

def searchedIn [Coin ρ] {α : Type} (record : Propagator ρ → List (α × Propagator ρ))
    (p : Propagator ρ) : List Call → List (α × Propagator ρ)
  | [] => []
  | c :: calls => p.searchedBy record c ++
    match p.answer c with
    | .ok (_, q) => q.searchedIn record calls
    | .error _ => []

-- ---------------------------------------------------------------------------
-- What is not marked
-- ---------------------------------------------------------------------------

/-- Whether the bits of each column and sum that is not marked allow what they allowed when it
was last propagated. -/
structure Awake (columns : Site → Propagator ρ) (sums : Nat → Propagator ρ)
    (p : Propagator ρ) : Prop where
  column : ∀ (u : Site) o, p.topology.operations[u.operation]? = some o →
    u.column < p.topology.wordSize → p.marks.marked.contains u = false →
    ∀ b ∈ p.topology.inputBits o u.column ++ p.topology.outputBits o u.column,
      ((columns u).condition b).subset (p.condition b) = true
  -- Without wordwise propagation the marks of sums are dropped, and no sum is propagated.
  sum : p.config.wordwise = true → ∀ (i : Nat) s, p.topology.sums[i]? = some s →
    i ∉ p.marks.sums → ∀ b ∈ s.words.flatMap p.topology.wordBits,
      ((sums i).condition b).subset (p.condition b) = true

theorem awake_start (p : Propagator ρ) : Awake (fun _ => p) (fun _ => p) p where
  column _ _ _ _ _ _ _ := Condition.subset_refl _
  sum _ _ _ _ _ _ _ := Condition.subset_refl _

theorem Awake.of_eq (h : Awake columns sums p) (hconfig : q.config = p.config)
    (htopology : q.topology = p.topology) (hcharacteristic : q.characteristic = p.characteristic)
    (hmarks : q.marks = p.marks) : Awake columns sums q where
  column u o ho hu hunmarked b hb := by
    rw [htopology] at ho hu hb
    have hsame : q.condition b = p.condition b := congrArg (·.get b) hcharacteristic
    exact hsame ▸ h.column u o ho hu (hmarks ▸ hunmarked) b hb
  sum hwordwise i s hs hunmarked b hb := by
    rw [htopology] at hs hb
    have hsame : q.condition b = p.condition b := congrArg (·.get b) hcharacteristic
    exact hsame ▸ h.sum (hconfig ▸ hwordwise) i s hs (hmarks ▸ hunmarked) b hb

-- ---------------------------------------------------------------------------
-- Refreshing
-- ---------------------------------------------------------------------------

/-- What wakes all that read a refined bit lets nothing sleep. -/
theorem Awake.of_wakes (h : Awake columns sums p) (hindexed : p.topology.Indexed)
    (hwakes : p.Wakes q) : Awake columns sums q where
  column u o ho hu hunmarked b hb := by
    rw [hwakes.topology] at ho hu hb
    have hunmarked := Bool.eq_false_iff.mp hunmarked
    have hbefore := Bool.eq_false_iff.mpr (mt (hwakes.marked u) hunmarked)
    exact Condition.subset_trans (h.column u o ho hu hbefore b hb)
      (hwakes.subset_of_column hindexed ho hu hunmarked hb)
  sum hwordwise i s hs hunmarked b hb := by
    rw [hwakes.topology] at hs hb
    have hbefore := mt (hwakes.sums i) hunmarked
    exact Condition.subset_trans (h.sum (hwakes.config ▸ hwordwise) i s hs hbefore b hb)
      (hwakes.subset_of_sum hindexed hs hunmarked hb)

-- ---------------------------------------------------------------------------
-- Searching
-- ---------------------------------------------------------------------------

theorem Awake.columnTaken (h : Awake columns sums p) {u : Site} {marks : Marks}
    (htaken : p.marks.nextColumn = (some u, marks)) :
    Awake (fun v => if u = v then { p with marks } else columns v) sums { p with marks } := by
  obtain ⟨hsums, hmarked⟩ := p.marks.nextColumn_frame
  rw [htaken] at hsums hmarked
  refine ⟨fun v o ho hv hunmarked b hb => ?_, fun hwordwise i s hs hunmarked => ?_⟩
  · split
    · exact Condition.subset_refl _
    · next hne =>
      refine h.column v o ho hv (Bool.eq_false_iff.mpr fun hv => ?_) b hb
      have hv : marks.marked.contains v = true := by
        rw [hmarked]
        exact (Marks.contains_erase _ _ _).mpr ⟨Ne.symm hne, hv⟩
      exact Bool.false_ne_true (hunmarked.symm.trans hv)
  · exact h.sum hwordwise i s hs (hsums ▸ hunmarked)

theorem Awake.sumTaken (h : Awake columns sums p) {i : Nat} {marks : Marks}
    (htaken : p.marks.nextSum = (some i, marks)) :
    Awake columns (fun k => if i = k then { p with marks } else sums k) { p with marks } := by
  obtain ⟨hmarked, hsums⟩ := p.marks.sums_nextSum
  rw [htaken] at hmarked hsums
  refine ⟨fun u o ho hu hunmarked => ?_, fun hwordwise k s hs hunmarked b hb => ?_⟩
  · exact h.column u o ho hu (hmarked ▸ hunmarked)
  · split
    · exact Condition.subset_refl _
    · next hne =>
      exact h.sum hwordwise k s hs (fun hk => hunmarked (hsums k (by simpa using hne) hk)) b hb

theorem Awake.propagateColumns (h : Awake columns sums p) (turns : Nat) :
    Awake (fun u => lastAt (columnsInTurns turns p) u (columns u)) sums
      (propagateColumns turns p).2 := by
  -- What was taken so far is part of what later turns compare with.
  induction turns generalizing p columns with
  | zero => exact h
  | succ turns ih =>
    obtain ⟨hsums, hmarked⟩ := p.marks.nextColumn_frame
    cases htaken : p.marks.nextColumn with
    | mk u? marks =>
      rw [htaken] at hsums hmarked
      cases u? with
      | none =>
        simp only [columnsInTurns, Propagator.propagateColumns, htaken]
        refine ⟨fun u o ho hu hunmarked => h.column u o ho hu ?_,
          fun hwordwise i s hs hunmarked => h.sum hwordwise i s hs ?_⟩
        · exact (congrArg (·.contains u) hmarked).symm.trans hunmarked
        · exact fun hi => hunmarked (show i ∈ marks.sums from hsums ▸ hi)
      | some u =>
        have hkept := kept_propagateColumn { p with marks } u
        have hafter := (h.columnTaken htaken).of_eq hkept.config hkept.topology
          hkept.characteristic (marks_propagateColumn _ u)
        cases hq : { p with marks }.propagateColumn u with
        | mk found q =>
          rw [hq] at hafter
          simp only [columnsInTurns, Propagator.propagateColumns, htaken, hq]
          cases found with
          | nothing => exact ih hafter
          | literals => exact hafter
          | conflict => exact hafter

theorem Awake.propagateSums (h : Awake columns sums p) (turns : Nat) :
    Awake columns (fun i => lastAt (sumsInTurns turns p) i (sums i))
      (propagateSums turns p).2 := by
  induction turns generalizing p sums with
  | zero => exact h
  | succ turns ih =>
    cases htaken : p.marks.nextSum with
    | mk i? marks =>
      cases i? with
      | none =>
        simp only [sumsInTurns, Propagator.propagateSums, htaken]
        exact h
      | some i =>
        have hkept := kept_propagateSum { p with marks } i
        have hafter := (h.sumTaken htaken).of_eq hkept.config hkept.topology
          hkept.characteristic (marks_propagateSum _ i)
        cases hq : { p with marks }.propagateSum i with
        | mk found q =>
          rw [hq] at hafter
          simp only [sumsInTurns, Propagator.propagateSums, htaken, hq]
          cases found with
          | nothing => exact ih hafter
          | literals => exact hafter
          | conflict => exact hafter

theorem Awake.findPropagation (h : Awake columns sums p) :
    Awake (fun u => lastAt p.columnsSearched u (columns u))
      (fun i => lastAt p.sumsSearched i (sums i)) p.findPropagation.2 := by
  have hcolumns := h.propagateColumns (p.marks.marked.size + 1)
  unfold columnsSearched
  cases hq : Propagator.propagateColumns (p.marks.marked.size + 1) p with
  | mk found q =>
    rw [hq] at hcolumns
    simp only [Propagator.findPropagation, sumsSearched, hq]
    cases found with
    | nothing =>
      dsimp only
      split
      · exact hcolumns.propagateSums _
      · next hwordwise => exact ⟨hcolumns.column, fun h => absurd h hwordwise⟩
    | literals => exact hcolumns
    | conflict => exact hcolumns

-- ---------------------------------------------------------------------------
-- Columns counted
-- ---------------------------------------------------------------------------

theorem columns_propagateColumn (p : Propagator ρ) (u : Site) :
    (p.propagateColumn u).2.counters.columns = p.counters.columns + 1 := by
  unfold propagateColumn
  dsimp only
  split
  · rfl
  · split
    · unfold contradiction
      split <;> rfl
    · unfold keepColumnEquations
      split <;> rfl

theorem columns_propagateSum (p : Propagator ρ) (i : Nat) :
    (p.propagateSum i).2.counters.columns = p.counters.columns := by
  unfold propagateSum
  split
  · rfl
  · dsimp only
    split
    · rfl
    · unfold contradiction
      split <;> rfl
    · unfold keepSumEquations
      split <;> split <;> rfl

theorem columns_propagateColumns (turns : Nat) (p : Propagator ρ) :
    (propagateColumns turns p).2.counters.columns =
      p.counters.columns + (columnsInTurns turns p).length := by
  induction turns generalizing p with
  | zero => rfl
  | succ turns ih =>
    cases htaken : p.marks.nextColumn with
    | mk u? marks =>
      cases u? with
      | none => simp [columnsInTurns, propagateColumns, htaken]
      | some u =>
        have hcounted := columns_propagateColumn { p with marks } u
        cases hq : { p with marks }.propagateColumn u with
        | mk found q =>
          rw [hq] at hcounted
          have hcounted : q.counters.columns = p.counters.columns + 1 := hcounted
          simp only [columnsInTurns, propagateColumns, htaken, hq, List.length_cons]
          cases found with
          | nothing =>
            refine (ih q).trans ?_
            rw [hcounted, Nat.add_assoc, Nat.add_comm 1]
          | literals => exact hcounted
          | conflict => exact hcounted

theorem columns_propagateSums (turns : Nat) (p : Propagator ρ) :
    (propagateSums turns p).2.counters.columns = p.counters.columns := by
  induction turns generalizing p with
  | zero => rfl
  | succ turns ih =>
    unfold propagateSums
    split
    · rfl
    · next i marks _ =>
      have hcounted := columns_propagateSum { p with marks } i
      split
      · next q hq =>
        rw [hq] at hcounted
        exact (ih q).trans hcounted
      · exact hcounted

theorem columns_findPropagation (p : Propagator ρ) :
    p.findPropagation.2.counters.columns = p.counters.columns + p.columnsSearched.length := by
  have hcounted := columns_propagateColumns (p.marks.marked.size + 1) p
  unfold findPropagation columnsSearched
  split
  · next q hq =>
    rw [hq] at hcounted
    split
    · exact (columns_propagateSums _ q).trans hcounted
    · exact hcounted
  · exact hcounted

theorem columns_reached (p : Propagator ρ) (c : Call) : (p.reached c).counters.columns =
    p.counters.columns + (p.searchedBy columnsSearched c).length := by
  unfold reached searchedBy
  cases hs : p.refreshes? c with
  | none => rfl
  | some s =>
    have hrefreshed : s.refresh.counters.columns = p.counters.columns := by
      rw [refresh_frame]
      exact (refreshes?_frame hs).2.2.2.2.1
    by_cases hc : c = .propagate
    · simp only [hc, if_true, columns_findPropagation, hrefreshed]
    · simp only [hc, if_false, List.length_nil]
      exact hrefreshed

-- ---------------------------------------------------------------------------
-- Calls
-- ---------------------------------------------------------------------------

theorem Awake.reached (h : Awake columns sums p) (hindexed : p.topology.Indexed) (c : Call) :
    Awake (fun u => lastAt (p.searchedBy columnsSearched c) u (columns u))
      (fun i => lastAt (p.searchedBy sumsSearched c) i (sums i)) (p.reached c) := by
  unfold searchedBy Propagator.reached
  cases hs : p.refreshes? c with
  | none => exact h
  | some s =>
    obtain ⟨hconfig, htopology, hcharacteristic, hmarks, -⟩ := refreshes?_frame hs
    have hrefreshed : Awake columns sums s.refresh :=
      (h.of_eq hconfig htopology hcharacteristic hmarks).of_wakes (htopology ▸ hindexed)
        s.wakes_refresh
    by_cases hc : c = .propagate
    · simp only [hc, if_true]
      exact hrefreshed.findPropagation
    · simp only [hc, if_false]
      exact hrefreshed

variable [Coin ρ]

theorem Awake.answer (h : Awake columns sums p) (hindexed : p.topology.Indexed) {c : Call}
    {a : Answer} (hc : p.answer c = .ok (a, q)) :
    Awake (fun u => lastAt (p.searchedBy columnsSearched c) u (columns u))
      (fun i => lastAt (p.searchedBy sumsSearched c) i (sums i)) q := by
  obtain ⟨hconfig, htopology⟩ := answer_frame hc
  rcases answer_cases hc with ⟨l, isFixed, rfl, rfl⟩ | hshows
  · exact h.of_eq hconfig htopology (by rw [assign_frame]) (by rw [assign_frame])
  · obtain ⟨hconfig', htopology'⟩ := p.reached_frame c
    exact (h.reached hindexed c).of_eq (hconfig.trans hconfig'.symm)
      (htopology.trans htopology'.symm) hshows.characteristic hshows.marks

/-- What holds of each column and sum after a dialogue, as compared with when it was last
propagated in the dialogue, or else with the start. -/
theorem Awake.converse (h : Awake columns sums p) (hindexed : p.topology.Indexed)
    {calls : List Call} {answers : List Answer} (hq : p.converse calls = .ok (answers, q)) :
    Awake (fun u => lastAt (p.searchedIn columnsSearched calls) u (columns u))
      (fun i => lastAt (p.searchedIn sumsSearched calls) i (sums i)) q := by
  induction calls generalizing p columns sums answers with
  | nil =>
    obtain ⟨-, rfl⟩ := Prod.mk.inj (Except.ok.inj hq)
    exact h
  | cons c calls ih =>
    obtain ⟨a, r, later, hc, hlater, -⟩ := exists_of_converse_cons hq
    have hrest := ih (h.answer hindexed hc) ((answer_frame hc).2 ▸ hindexed) hlater
    simpa only [searchedIn, hc, lastAt_append] using hrest

theorem columns_converse {calls : List Call} {answers : List Answer}
    (hq : p.converse calls = .ok (answers, q)) : q.counters.columns =
      p.counters.columns + (p.searchedIn columnsSearched calls).length := by
  induction calls generalizing p answers with
  | nil =>
    obtain ⟨-, rfl⟩ := Prod.mk.inj (Except.ok.inj hq)
    rfl
  | cons c calls ih =>
    obtain ⟨a, r, later, hc, hlater, -⟩ := exists_of_converse_cons hq
    have hcounted : r.counters.columns =
        p.counters.columns + (p.searchedBy columnsSearched c).length := by
      rcases answer_cases hc with ⟨l, isFixed, rfl, rfl⟩ | hshows
      · unfold assign
        split <;> rfl
      · exact hshows.columns.trans (p.columns_reached c)
    simp only [searchedIn, hc, List.length_append]
    rw [ih hlater, hcounted, Nat.add_assoc]

end Propagator

end ShaDiff
