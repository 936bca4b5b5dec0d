import ShaDiff.Proofs.Propagator.Underway

/-!
# A search that finds nothing ends in a fixpoint

A search takes marks one by one. A column that was taken forces nothing, or what it forces
is found and given to the host; a sum that was taken is settled, or awaits what was found.
All else is as it was, so it stays underway. There are turns for all marks.
-/

namespace ShaDiff.Propagator

variable {ρ : Type} {p q : Propagator ρ} {o : Operation} {s : SumEquation} {u : Site} {b : Bit}
  {c : Condition} {l : Literal} {ls : List Literal} {bits : List Bit}

-- ---------------------------------------------------------------------------
-- What a search keeps
-- ---------------------------------------------------------------------------

theorem Kept.extends (h : p.Kept q) : p.Extends q := fun a v hv => by
  rwa [value?, h.valuation]

theorem Kept.condition_eq (h : p.Kept q) (b : Bit) : q.condition b = p.condition b := by
  rw [condition, h.characteristic, condition]

theorem Kept.forced (h : p.Kept q) (b : Bit) (c : Condition) : q.forced b c = p.forced b c := by
  simp only [Propagator.forced, encoding, Propagator.literal?, h.condition_eq, h.topology,
    h.valuation]

theorem Kept.columnForces (h : p.Kept q) {j : Nat} (hf : p.ColumnForces o j []) :
    q.ColumnForces o j ls :=
  hf.mono h.topology (fun b _ => h.condition_eq b) h.extends nofun

theorem Kept.sumSettled (h : p.Kept q) (hs : p.SumSettled s) : q.SumSettled s :=
  hs.mono h.topology (fun b _ => h.condition_eq b) h.extends

theorem Kept.awaits (h : p.Kept q) (hs : p.Awaits s ls) : q.Awaits s ls :=
  hs.mono h.topology h.condition_eq h.extends fun _ hl => .inl hl

theorem marks_contradiction (p : Propagator ρ) (c : Clause) :
    (p.contradiction c).2.marks = p.marks := by
  unfold contradiction
  split <;> rfl

theorem marks_propagateColumn (p : Propagator ρ) (u : Site) :
    (p.propagateColumn u).2.marks = p.marks := by
  unfold propagateColumn
  dsimp only
  split
  · rfl
  · split
    · exact marks_contradiction _ _
    · unfold keepColumnEquations
      split <;> rfl

theorem marks_propagateSum (p : Propagator ρ) (sum : Nat) :
    (p.propagateSum sum).2.marks = p.marks := by
  unfold propagateSum
  split
  · rfl
  · dsimp only
    split
    · rfl
    · exact marks_contradiction _ _
    · unfold keepSumEquations
      split <;> split <;> rfl

-- ---------------------------------------------------------------------------
-- Columns
-- ---------------------------------------------------------------------------

theorem any_of_antecedent (hr : p.topology.Reflects p.valuation p.characteristic)
    (h : (p.antecedent bits).isEmpty = true) (hb : b ∈ bits) (hz : b.isZero = false) :
    p.condition b = .any := by
  rw [condition, hr b hz]
  refine Encoding.refresh_of_none fun x hx => ?_
  obtain ⟨a?, ha, rfl⟩ := List.mem_map.mp hx
  cases a? with
  | none => rfl
  | some a =>
    refine Option.eq_none_iff_forall_ne_some.mpr fun v hv => ?_
    have hmem : (⟨a, v⟩ : Literal) ∈ p.trueLiterals bits :=
      mem_trueLiterals.mpr ⟨b, hb, List.mem_filterMap.mpr ⟨_, ha, rfl⟩, hv⟩
    rw [antecedent, List.isEmpty_iff, List.map_eq_nil_iff] at h
    rw [h] at hmem
    cases hmem

theorem leaves_withReasons {P : List Literal → Prop} (h : P ls) (antecedent : Clause) :
    (withReasons ls antecedent).Leaves P := by
  cases ls with
  | nil => exact h
  | cons l ls =>
    refine ⟨nofun, ?_⟩
    rwa [List.map_map, show (Prod.fst ∘ fun l => (l, l :: antecedent)) = id from rfl, List.map_id]

theorem leaves_contradiction {P : List Literal → Prop}
    (h : (p.antecedent bits).isEmpty = true → P []) :
    (p.contradiction (p.antecedent bits)).1.Leaves P := by
  unfold contradiction
  split
  · next hempty => exact h hempty
  · trivial

/-- What a column forces is found, unless the column is contradictory. -/
theorem Ready.columnForces (h : p.Ready False) (u : Site) :
    (p.propagateColumn u).1.Leaves fun ls => ∀ o, p.topology.operations[u.operation]? = some o →
      p.ColumnForces o u.column ls := by
  unfold propagateColumn
  dsimp only
  split
  · next hnone => exact fun o ho => nomatch hnone.symm.trans ho
  · next o ho =>
    have hresult := h.columnCache.getOrInsert (k := ⟨o.gate,
      (p.topology.inputBits o u.column).map p.condition,
      (p.topology.outputBits o u.column).map p.condition⟩)
      (f := fun k => Column.propagate k.gate k.inputs k.outputs) (.inl rfl)
    have hresult := hresult.1.resolve_right fun hrules => hrules.1
    have hsame (o' : Operation) (ho' : p.topology.operations[u.operation]? = some o') : o' = o :=
      Option.some.inj (ho'.symm.trans ho)
    split
    · refine leaves_contradiction (p := { p with columnCache := _, counters := _ }) ?_
      intro hempty o' ho'
      obtain ⟨order, hbuilt⟩ := h.built
      obtain rfl := hsame o' ho'
      exact columnForces_free (fun b => any_of_antecedent h.reflects hempty) hbuilt
        (Array.mem_of_getElem? ho)
    · next outcome houtcome =>
      refine leaves_withReasons (fun o' ho' => ?_) _
      obtain rfl := hsame o' ho'
      exact ⟨outcome, hresult.symm.trans houtcome, fun _ hl => hl⟩

theorem ColumnsForce.take (h : p.ColumnsForce []) (hready : p.Ready False) {marks : Marks}
    (hbelow : marks.Below p.topology.wordSize)
    (hmarked : ∀ v, v ≠ u → p.marks.marked.contains v = true → marks.marked.contains v = true) :
    ({ p with marks }.propagateColumn u).1.Leaves
      ({ p with marks }.propagateColumn u).2.ColumnsForce := by
  have htaken : ({ p with marks } : Propagator ρ).Ready False := { hready with marks := hbelow }
  have hkept := kept_propagateColumn { p with marks } u
  have hmarks := marks_propagateColumn { p with marks } u
  refine (htaken.columnForces u).imp fun ls hu v o ho hv => ?_
  rw [hkept.topology] at ho hv
  by_cases hvu : v = u
  · subst hvu
    refine .inr ((hu o ho).mono hkept.topology (fun b _ => hkept.condition_eq b) hkept.extends ?_)
    exact fun _ hl => .inl hl
  · rw [hmarks]
    refine (h v o ho hv).imp (hmarked v hvu) fun hforces => hkept.columnForces ?_
    exact hforces

/-- What holds once columns were searched, if there was a turn for each mark. -/
structure ColumnsSearched (p : Propagator ρ) (found : Finding × Propagator ρ) : Prop where
  queued : found.2.marks.Queued
  sums : found.2.marks.sums = p.marks.sums
  none : found.1 = .nothing → ∀ u, found.2.marks.marked.contains u = false
  leaves : found.1.Leaves found.2.ColumnsForce

theorem Ready.columnsSearched (h : p.Ready False) (hq : p.marks.Queued) {turns : Nat}
    (hturns : p.marks.marked.size < turns) (hc : p.ColumnsForce []) :
    p.ColumnsSearched (propagateColumns turns p) := by
  induction turns generalizing p with
  | zero => cases hturns
  | succ turns ih =>
    have htakes := hq.nextColumn
    have hbelow := h.marks.nextColumn
    unfold propagateColumns
    split
    · next marks heq =>
      rw [heq] at htakes
      obtain ⟨hmarked, hempty⟩ := htakes.none rfl
      have hnone (u : Site) : marks.marked.contains u = false :=
        (congrArg (·.contains u) hmarked).trans (hempty u)
      refine ⟨htakes.queued, htakes.sums, fun _ => hnone, fun u o ho hu => .inr ?_⟩
      exact (hc u o ho hu).resolve_left (by rw [hempty]; nofun)
    · next u marks heq =>
      rw [heq] at htakes hbelow
      obtain ⟨hu, herase⟩ := htakes.some u rfl
      have herase : marks.marked = p.marks.marked.erase u := herase
      have htaken : ({ p with marks } : Propagator ρ).Ready False := { h with marks := hbelow.2 }
      have hready := (htaken.finds_propagateColumn (hbelow.1 u rfl)).ready
      have hmarks := marks_propagateColumn { p with marks } u
      have hleaves := hc.take h hbelow.2 (u := u) fun v hv hm => by
        rw [herase, Marks.contains_erase]
        exact ⟨hv, hm⟩
      split
      · next q hfound =>
        rw [hfound] at hready hmarks hleaves
        have hmarks : q.marks = marks := hmarks
        have hsize : q.marks.marked.size < turns := by
          rw [hmarks, herase]
          exact Nat.lt_of_lt_of_le (Marks.size_erase_lt hu) (Nat.le_of_lt_succ hturns)
        have hsearched := ih hready (hmarks ▸ htakes.queued) hsize hleaves
        exact { hsearched with sums := hsearched.sums.trans (hmarks ▸ htakes.sums) }
      · next hsome =>
        refine ⟨hmarks ▸ htakes.queued, hmarks ▸ htakes.sums, fun hnothing => ?_, hleaves⟩
        exact (hsome _ (Prod.ext hnothing rfl)).elim

-- ---------------------------------------------------------------------------
-- Sums
-- ---------------------------------------------------------------------------

theorem firstForced_eq_nil {refined : List (Bit × Condition)} (h : p.firstForced refined = []) :
    ∀ b c, (b, c) ∈ refined → p.forced b c = [] := by
  induction refined with
  | nil => nofun
  | cons x refined ih =>
    unfold firstForced at h
    split at h
    · next hx =>
      intro b c hmem
      rcases List.mem_cons.mp hmem with rfl | hmem
      · exact hx
      · exact ih h b c hmem
    · next hx => exact absurd h hx

theorem Kept.firstForced (h : p.Kept q) (refined : List (Bit × Condition)) :
    q.firstForced refined = p.firstForced refined := by
  induction refined with
  | nil => rfl
  | cons x refined ih => simp only [Propagator.firstForced, h.forced, ih]

theorem Ready.awaits (h : p.Ready False) {refined : List (List Condition)}
    {relations : List Sum.WordRelation}
    (hrefined : Sum.propagate (s.positive.map p.wordConditions) (s.negative.map p.wordConditions) =
      .refined refined relations) (hne : p.firstForced (refinedBits s.words refined) ≠ []) :
    p.Awaits s (p.firstForced (refinedBits s.words refined)) := by
  obtain ⟨l, hl⟩ := List.exists_mem_of_ne_nil _ hne
  obtain ⟨b, c, hmem, hforced⟩ := exists_of_mem_firstForced hl
  obtain ⟨hb, hsign⟩ := signwise_of_mem_refinedBits hrefined hmem
  have hz : b.isZero = false := by
    refine Bool.eq_false_iff.mpr fun hz => ?_
    rw [forced_of_isZero hz] at hforced
    cases hforced
  have hnone := literal?_of_mem_forced hforced
  unfold Propagator.forced at hforced
  split at hforced
  · cases hforced
  · next hrefines =>
    have hforced := (List.mem_filter.mp hforced).1
    unfold Encoding.forced at hforced
    split at hforced
    · cases hforced
    · next hnever =>
      obtain ⟨r, hr, hliteral⟩ := List.mem_filterMap.mp hforced
      obtain ⟨hr, hsubset⟩ := List.mem_filter.mp hr
      obtain ⟨x, hx⟩ := Condition.allows_of_ne_never hnever
      have hregion := Condition.subset_iff.mp hsubset x hx
      refine ⟨b, hb, r, hr, l, hliteral, ⟨?_, x, hsign.allows hx, hregion⟩, .inl hl⟩
      rw [condition, h.reflects b hz] at hsign hrefines ⊢
      refine Encoding.not_implied_of_signwise hr ?_ hsign hrefines hnever
      obtain ⟨a, ha, rfl⟩ := Option.map_eq_some_iff.mp hliteral
      rw [join_values, ha]
      exact literal?_eq_none.mp hnone

/-- A sum is settled or awaits what is found, unless it is contradictory. -/
theorem Ready.sumForces (h : p.Ready False) (i : Nat) :
    (p.propagateSum i).1.Leaves fun ls => ∀ s, p.topology.sums[i]? = some s →
      p.SumSettled s ∨ p.Awaits s ls := by
  unfold propagateSum
  split
  · next hnone => exact fun s hs => nomatch hnone.symm.trans hs
  · next s hs =>
    have hmem := Array.mem_of_getElem? hs
    have hresult := h.sumCache.getOrInsert (k := ⟨s.role, (s.positive.map p.wordConditions ++
      s.negative.map p.wordConditions).flatten⟩) (f := fun _ => Sum.propagate
        (s.positive.map p.wordConditions) (s.negative.map p.wordConditions))
      (SumKey.answers_propagate (h.sumShape hmem))
    have hresult := hresult.1 _ _ (h.sumShape hmem) rfl
    have hsame (s' : SumEquation) (hs' : p.topology.sums[i]? = some s') : s' = s :=
      Option.some.inj (hs'.symm.trans hs)
    dsimp only
    split
    · next heq =>
      intro s' hs'
      obtain rfl := hsame s' hs'
      unfold SumSettled
      rw [hresult.symm.trans heq]
      exact .inl trivial
    · next heq =>
      -- Where nothing is known a sum is skipped, so its contradiction has an antecedent.
      refine leaves_contradiction (p := { p with sumCache := _ }) fun hempty => ?_
      obtain ⟨order, hbuilt⟩ := h.built
      have hskipped := propagate_sum_free hbuilt hmem fun b => any_of_antecedent h.reflects hempty
      exact nomatch (heq.symm.trans hresult).trans hskipped
    · next refined relations heq =>
      have heq := hresult.symm.trans heq
      have hcached (sumCache : SumCache) : p.Kept { p with sumCache } :=
        ⟨rfl, rfl, rfl, rfl, rfl, rfl, rfl⟩
      have hequations (sumCache : SumCache) (antecedent : Clause) :=
        (hcached sumCache).trans (kept_keepSumEquations _ i s.words relations antecedent)
      rw [(hequations _ _).firstForced]
      split
      · next hnil =>
        intro s' hs'
        obtain rfl := hsame s' hs'
        unfold SumSettled
        rw [heq]
        exact .inl (firstForced_eq_nil hnil)
      · next hne =>
        refine leaves_withReasons (fun s' hs' => ?_) _
        obtain rfl := hsame s' hs'
        exact .inr (h.awaits heq hne)

theorem SumsForce.take (h : p.SumsForce []) (hready : p.Ready False) {marks : Marks} {sum : Nat}
    (hbelow : marks.Below p.topology.wordSize)
    (hsums : ∀ i ∈ p.marks.sums, i = sum ∨ i ∈ marks.sums) :
    ({ p with marks }.propagateSum sum).1.Leaves
      ({ p with marks }.propagateSum sum).2.SumsForce := by
  have htaken : ({ p with marks } : Propagator ρ).Ready False := { hready with marks := hbelow }
  have hkept := kept_propagateSum { p with marks } sum
  have hmarks := marks_propagateSum { p with marks } sum
  refine (htaken.sumForces sum).imp fun ls htook i s hs => ?_
  rw [hkept.topology] at hs
  rw [hmarks]
  rcases h i s hs with hm | hsettled | hawaits
  · rcases hsums i hm with rfl | hm
    · rcases htook s hs with hsettled | hawaits
      · exact .inr (.inl (hkept.sumSettled hsettled))
      · exact .inr (.inr (hkept.awaits hawaits))
    · exact .inl hm
  · exact .inr (.inl (hkept.sumSettled hsettled))
  · refine .inr (.inr (hkept.awaits (p := { p with marks }) ?_))
    exact hawaits.mono (q := { p with marks }) rfl (fun _ => rfl) (fun _ _ hv => hv) nofun

structure SumsSearched (p : Propagator ρ) (found : Finding × Propagator ρ) : Prop where
  queued : found.2.marks.Queued
  marked : found.2.marks.marked = p.marks.marked
  none : found.1 = .nothing → found.2.marks.sums = []
  leaves : found.1.Leaves found.2.SumsForce

theorem Ready.sumsSearched (h : p.Ready False) (hq : p.marks.Queued) {turns : Nat}
    (hturns : p.marks.sums.length ≤ turns) (hs : p.SumsForce []) :
    p.SumsSearched (propagateSums turns p) := by
  induction turns generalizing p with
  | zero => exact ⟨hq, rfl, fun _ => List.eq_nil_of_length_eq_zero (Nat.le_zero.mp hturns), hs⟩
  | succ turns ih =>
    have hbelow := h.marks.nextSum
    unfold propagateSums
    cases hsums : p.marks.sums with
    | nil =>
      have hnext : p.marks.nextSum = (none, p.marks) := by rw [Marks.nextSum, hsums]
      rw [hnext]
      exact ⟨hq, rfl, fun _ => hsums, hs⟩
    | cons sum rest =>
      have hnext : p.marks.nextSum = (some sum, { p.marks with sums := rest }) := by
        rw [Marks.nextSum, hsums]
      rw [hnext] at hbelow ⊢
      have htaken : ({ p with marks := { p.marks with sums := rest } } : Propagator ρ).Ready
          False := { h with marks := hbelow }
      have hready := (htaken.finds_propagateSum sum).ready
      have hmarks := marks_propagateSum { p with marks := { p.marks with sums := rest } } sum
      have hother : ∀ i ∈ p.marks.sums, i = sum ∨ i ∈ rest := fun i hi => by
        rw [hsums] at hi
        exact List.mem_cons.mp hi
      have hleaves := hs.take h hbelow hother
      dsimp only
      split
      · next q hfound =>
        rw [hfound] at hready hmarks hleaves
        have hmarks : q.marks = { p.marks with sums := rest } := hmarks
        have hlength : q.marks.sums.length ≤ turns := by
          rw [hmarks]
          rw [hsums] at hturns
          exact Nat.le_of_succ_le_succ hturns
        have hsearched := ih hready (hmarks ▸ hq) hlength hleaves
        exact { hsearched with marked := hsearched.marked.trans (by rw [hmarks]) }
      · next hsome =>
        refine ⟨hmarks ▸ hq, by rw [hmarks], fun hnothing => ?_, hleaves⟩
        exact (hsome _ (Prod.ext hnothing rfl)).elim

-- ---------------------------------------------------------------------------
-- All that is marked
-- ---------------------------------------------------------------------------

theorem Ready.not_awaits (h : p.Ready False) : ¬ p.Awaits s [] := by
  rintro ⟨b, -, r, hr, l, hl, hsplits, hlater⟩
  exact not_splits hr hl (hlater.resolve_left List.not_mem_nil)
    (h.reflects b (isZero_of_literal? hl)) hsplits

theorem Ready.fixpoint (h : p.Ready False) (hu : p.Underway [])
    (hmarked : ∀ u, p.marks.marked.contains u = false)
    (hsums : p.config.wordwise = true → p.marks.sums = []) : p.Fixpoint where
  column o ho j hj := by
    obtain ⟨i, hi⟩ := Array.getElem?_of_mem ho
    refine (hu.column ⟨i, j⟩ o hi hj).resolve_left ?_
    rw [hmarked]
    nofun
  sum hwordwise s hs := by
    obtain ⟨i, hi⟩ := Array.getElem?_of_mem hs
    rcases hu.sum hwordwise i s hi with hm | hsettled | hawaits
    · rw [hsums hwordwise] at hm
      cases hm
    · exact hsettled
    · exact absurd hawaits h.not_awaits

theorem Kept.columnsForce (hkept : p.Kept q) (h : p.ColumnsForce [])
    (hmarked : q.marks.marked = p.marks.marked) (ls : List Literal) : q.ColumnsForce ls := by
  intro u o ho hu
  rw [hkept.topology] at ho hu
  rw [hmarked]
  exact (h u o ho hu).imp id hkept.columnForces

theorem Kept.sumsForce (hkept : p.Kept q) (h : p.SumsForce []) (hready : p.Ready False)
    (hsums : q.marks.sums = p.marks.sums) (ls : List Literal) : q.SumsForce ls := by
  intro i s hs
  rw [hkept.topology] at hs
  rw [hsums]
  rcases h i s hs with hm | hsettled | hawaits
  · exact .inl hm
  · exact .inr (.inl (hkept.sumSettled hsettled))
  · exact absurd hawaits hready.not_awaits

structure Searched (found : Finding × Propagator ρ) : Prop where
  queued : found.2.marks.Queued
  fixpoint : found.1 = .nothing → found.2.Fixpoint
  leaves : found.1.Leaves found.2.Underway

theorem Ready.searched (h : p.Ready False) (hq : p.marks.Queued) (hu : p.Underway []) :
    Searched p.findPropagation := by
  have hcolumns := h.columnsSearched hq (Nat.lt_succ_self _) hu.column
  have hready := (h.finds_propagateColumns (p.marks.marked.size + 1)).ready
  have hkept := kept_propagateColumns (p.marks.marked.size + 1) p
  have hsums (hwordwise : p.config.wordwise = true) :=
    hkept.sumsForce (hu.sum hwordwise) h hcolumns.sums
  unfold findPropagation
  split
  · next q hfound =>
    rw [hfound] at hcolumns hready hkept hsums
    have hmarked := hcolumns.none rfl
    split
    · next hwordwise =>
      have hsearched := hready.sumsSearched hcolumns.queued (Nat.le_refl _)
        (hsums (hkept.config ▸ hwordwise) [])
      have hready' := (hready.finds_propagateSums q.marks.sums.length).ready
      have hkept' := kept_propagateSums q.marks.sums.length q
      have hleaves := hsearched.leaves.imp (Q := (propagateSums q.marks.sums.length q).2.Underway)
        fun ls hls => ⟨?_, fun _ => hls⟩
      · refine ⟨hsearched.queued, fun hnothing => ?_, hleaves⟩
        refine hready'.fixpoint ?_ (fun u => ?_) fun _ => hsearched.none hnothing
        · rw [hnothing] at hleaves
          exact hleaves
        · rw [hsearched.marked]
          exact hmarked u
      · exact hkept'.columnsForce hcolumns.leaves hsearched.marked ls
    · next hbitwise =>
      have hunderway : ({ q with marks := q.marks.clearSums } : Propagator ρ).Underway [] :=
        ⟨hcolumns.leaves, fun hwordwise => absurd hwordwise hbitwise⟩
      have hready' : ({ q with marks := q.marks.clearSums } : Propagator ρ).Ready False :=
        { hready with marks := hready.marks }
      exact ⟨hcolumns.queued, fun _ => hready'.fixpoint hunderway hmarked
        fun hwordwise => absurd hwordwise hbitwise, hunderway⟩
  · next hsome =>
    refine ⟨hcolumns.queued, fun hnothing => (hsome _ (Prod.ext hnothing rfl)).elim, ?_⟩
    exact hcolumns.leaves.imp fun ls hls =>
      ⟨hls, fun hwordwise => hsums (hkept.config ▸ hwordwise) ls⟩

end ShaDiff.Propagator
