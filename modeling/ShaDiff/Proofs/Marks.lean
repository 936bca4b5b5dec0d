import ShaDiff.Marks

/-!
# No mark is lost

Every marked column has a place in the queue, so as long as a column is marked there is one
to be taken, and only that one loses its mark. The marks of sums are a list in any case.
-/

namespace ShaDiff.Marks

variable {m m' : Marks} {s u : Site}

def Queued (m : Marks) : Prop := ∀ u, m.marked.contains u = true → u ∈ m.queue

theorem queued_empty : empty.Queued := by
  intro u hu
  simp [empty] at hu

theorem contains_markColumn : (m.markColumn s).marked.contains u = true ↔
    u = s ∨ m.marked.contains u = true := by
  unfold markColumn
  dsimp only
  split
  · next hs =>
    constructor
    · exact .inr
    · rintro (rfl | hu)
      · exact hs
      · exact hu
  · simp only [Std.TreeSet.contains_insert, Bool.or_eq_true, beq_iff_eq,
      Std.LawfulEqCmp.compare_eq_iff_eq]
    exact or_congr_left eq_comm

theorem sums_markColumn (m : Marks) (s : Site) : (m.markColumn s).sums = m.sums := by
  unfold markColumn
  dsimp only
  split <;> rfl

theorem Queued.markColumn (h : m.Queued) (s : Site) : (m.markColumn s).Queued := by
  intro u hu
  rcases contains_markColumn.mp hu with rfl | hu
  · unfold Marks.markColumn
    dsimp only
    split
    · next hs => exact h u hs
    · simp [queue]
  · have := h u hu
    unfold Marks.markColumn
    dsimp only
    split
    · exact this
    · simp only [queue, List.mem_append, List.mem_reverse, List.mem_cons] at this ⊢
      exact this.imp_right .inr

theorem mem_sums_markSum {sum i : Nat} : i ∈ (m.markSum sum).sums ↔ i = sum ∨ i ∈ m.sums := by
  unfold markSum
  split
  · next hs =>
    constructor
    · exact .inr
    · rintro (rfl | hi)
      · simpa using hs
      · exact hi
  · simp [or_comm]

theorem marked_markSum (m : Marks) (sum : Nat) : (m.markSum sum).marked = m.marked := by
  unfold markSum
  split <;> rfl

theorem Queued.markSum (h : m.Queued) (sum : Nat) : (m.markSum sum).Queued := by
  unfold Marks.markSum
  split <;> exact h

-- ---------------------------------------------------------------------------
-- Many marks
-- ---------------------------------------------------------------------------

theorem foldl_markColumn (m : Marks) (sites : List Site) :
    (sites.foldl .markColumn m).sums = m.sums ∧
      (m.Queued → (sites.foldl .markColumn m).Queued) ∧
      ∀ u, (sites.foldl .markColumn m).marked.contains u = true ↔
        u ∈ sites ∨ m.marked.contains u = true := by
  induction sites generalizing m with
  | nil => simp
  | cons s sites ih =>
    obtain ⟨hsums, hqueued, hmarked⟩ := ih (m.markColumn s)
    refine ⟨hsums.trans (m.sums_markColumn s), fun h => hqueued (h.markColumn s), fun u => ?_⟩
    rw [List.foldl_cons, hmarked, contains_markColumn, List.mem_cons, or_left_comm, or_assoc]

theorem foldl_markSum (m : Marks) (sums : List Nat) :
    (sums.foldl .markSum m).marked = m.marked ∧
      (m.Queued → (sums.foldl .markSum m).Queued) ∧
      ∀ i, i ∈ (sums.foldl .markSum m).sums ↔ i ∈ sums ∨ i ∈ m.sums := by
  induction sums generalizing m with
  | nil => simp
  | cons sum sums ih =>
    obtain ⟨hmarked, hqueued, hsums⟩ := ih (m.markSum sum)
    refine ⟨hmarked.trans (m.marked_markSum sum), fun h => hqueued (h.markSum sum), fun i => ?_⟩
    rw [List.foldl_cons, hsums, mem_sums_markSum, List.mem_cons, or_left_comm, or_assoc]

-- ---------------------------------------------------------------------------
-- Columns that are taken
-- ---------------------------------------------------------------------------

theorem firstMarked_eq_none {marked : Std.TreeSet Site} {places : List Site}
    (h : firstMarked marked places = none) : ∀ u ∈ places, marked.contains u = false := by
  induction places with
  | nil => nofun
  | cons s places ih =>
    unfold firstMarked at h
    split at h
    · cases h
    · next hs => exact List.forall_mem_cons.mpr ⟨Bool.not_eq_true _ ▸ hs, ih h⟩

theorem firstMarked_eq_some {marked : Std.TreeSet Site} {places rest : List Site}
    (h : firstMarked marked places = some (s, rest)) : marked.contains s = true ∧
      ∃ skipped, places = skipped ++ s :: rest ∧ ∀ u ∈ skipped, marked.contains u = false := by
  induction places with
  | nil => cases h
  | cons v places ih =>
    unfold firstMarked at h
    split at h
    · next hv =>
      cases h
      exact ⟨hv, [], rfl, nofun⟩
    · next hv =>
      obtain ⟨hs, skipped, rfl, hskipped⟩ := ih h
      exact ⟨hs, v :: skipped, rfl, List.forall_mem_cons.mpr ⟨Bool.not_eq_true _ ▸ hv, hskipped⟩⟩

theorem contains_erase (marked : Std.TreeSet Site) (s u : Site) :
    (marked.erase s).contains u = true ↔ u ≠ s ∧ marked.contains u = true := by
  rw [Std.TreeSet.contains_erase, Bool.and_eq_true, bne_iff_ne, ne_eq, ne_eq,
    Std.LawfulEqCmp.compare_eq_iff_eq, eq_comm]

theorem size_erase_lt {marked : Std.TreeSet Site} (h : marked.contains s = true) :
    (marked.erase s).size < marked.size := by
  have hne : marked.size ≠ 0 := by
    intro hzero
    have hempty : marked.isEmpty = true := by
      simpa [Std.TreeSet.isEmpty_eq_size_eq_zero] using hzero
    rw [Std.TreeSet.contains_of_isEmpty hempty] at h
    cases h
  rw [Std.TreeSet.size_erase, if_pos h]
  exact Nat.sub_one_lt hne

/-- The first marked place of the queue is taken, along with the places before it. -/
theorem nextQueued_cases (m : Marks) :
    (∃ s skipped, m.queue = skipped ++ s :: m.nextQueued.2.queue ∧
      (∀ u ∈ skipped, m.marked.contains u = false) ∧ m.marked.contains s = true ∧
      m.nextQueued.1 = some s ∧ m.nextQueued.2.marked = m.marked.erase s) ∨
    (∀ u ∈ m.queue, m.marked.contains u = false) ∧
      m.nextQueued = (none, { m with front := [], back := [] }) := by
  unfold nextQueued
  split
  · next s rest hfirst =>
    obtain ⟨hs, skipped, hfront, hskipped⟩ := firstMarked_eq_some hfirst
    exact .inl ⟨s, skipped, by simp [queue, hfront], hskipped, hs, rfl, rfl⟩
  · next hnone =>
    have hfront := firstMarked_eq_none hnone
    split
    · next s rest hfirst =>
      obtain ⟨hs, skipped, hback, hskipped⟩ := firstMarked_eq_some hfirst
      refine .inl ⟨s, m.front ++ skipped, by simp [queue, hback], fun u hu => ?_, hs, rfl, rfl⟩
      exact (List.mem_append.mp hu).elim (hfront u) (hskipped u)
    · next hnone =>
      refine .inr ⟨fun u hu => ?_, rfl⟩
      exact (List.mem_append.mp hu).elim (hfront u) (firstMarked_eq_none hnone u)

theorem nextQueued_frame (m : Marks) : m.nextQueued.2.sums = m.sums ∧
    m.nextQueued.2.last? = m.last? ∧
    m.nextQueued.2.marked = m.nextQueued.1.elim m.marked m.marked.erase := by
  unfold nextQueued
  split
  · exact ⟨rfl, rfl, rfl⟩
  · split <;> exact ⟨rfl, rfl, rfl⟩

/-- What it means that marks are left once a column was taken, or none was marked. -/
structure Takes (m : Marks) (taken : Option Site × Marks) : Prop where
  queued : taken.2.Queued
  sums : taken.2.sums = m.sums
  none : taken.1 = none → taken.2.marked = m.marked ∧ ∀ u, m.marked.contains u = false
  some : ∀ s, taken.1 = some s → m.marked.contains s = true ∧ taken.2.marked = m.marked.erase s

theorem Queued.nextQueued (h : m.Queued) : m.Takes m.nextQueued := by
  rcases m.nextQueued_cases with
    ⟨s, skipped, hqueue, hskipped, hs, htaken, hmarked⟩ | ⟨hqueue, hnone⟩
  · refine ⟨fun u hu => ?_, m.nextQueued_frame.1, fun h' => ?_, fun u hu => ?_⟩
    · rw [hmarked, contains_erase] at hu
      have hmem := h u hu.2
      rw [hqueue] at hmem
      rcases List.mem_append.mp hmem with hmem | hmem
      · rw [hskipped u hmem] at hu
        cases hu.2
      · exact (List.mem_cons.mp hmem).resolve_left hu.1
    · rw [htaken] at h'
      cases h'
    · rw [htaken] at hu
      cases hu
      exact ⟨hs, hmarked⟩
  · have hempty (u : Site) : m.marked.contains u = false := by
      cases hu : m.marked.contains u with
      | false => rfl
      | true => exact hu.symm.trans (hqueue u (h u hu))
    rw [hnone]
    refine ⟨fun u hu => ?_, rfl, fun _ => ⟨rfl, hempty⟩, nofun⟩
    rw [show m.marked.contains u = false from hempty u] at hu
    cases hu

theorem Queued.nextColumn (h : m.Queued) : m.Takes m.nextColumn := by
  have huntouched : ({ m with last? := none } : Marks).Takes
      ({ m with last? := none } : Marks).nextQueued := Queued.nextQueued h
  have hqueued : m.Takes ({ m with last? := none } : Marks).nextQueued :=
    ⟨huntouched.queued, huntouched.sums, huntouched.none, huntouched.some⟩
  unfold Marks.nextColumn
  dsimp only
  split
  · split
    · next s _ hs =>
      refine ⟨fun u hu => ?_, rfl, nofun, fun u hu => ?_⟩
      · exact h u ((contains_erase _ _ _).mp hu).2
      · cases hu
        exact ⟨hs, rfl⟩
    · exact hqueued
  · exact hqueued

theorem nextColumn_frame (m : Marks) : m.nextColumn.2.sums = m.sums ∧
    m.nextColumn.2.marked = m.nextColumn.1.elim m.marked m.marked.erase := by
  obtain ⟨hsums, -, hmarked⟩ := nextQueued_frame { m with last? := none }
  unfold nextColumn
  dsimp only
  split
  · split
    · exact ⟨rfl, rfl⟩
    · exact ⟨hsums, hmarked⟩
  · exact ⟨hsums, hmarked⟩

theorem sums_nextSum (m : Marks) : m.nextSum.2.marked = m.marked ∧
    ∀ i, m.nextSum.1 ≠ some i → i ∈ m.sums → i ∈ m.nextSum.2.sums := by
  unfold nextSum
  split
  · exact ⟨rfl, fun _ _ hi => hi⟩
  · next sum rest hsums =>
    refine ⟨rfl, fun i hne hi => ?_⟩
    rw [hsums] at hi
    exact (List.mem_cons.mp hi).resolve_left fun heq => hne (heq ▸ rfl)

-- ---------------------------------------------------------------------------
-- Sums as a queue and a set
-- ---------------------------------------------------------------------------

/-- Marks of sums that are looked up in a set, and taken from a queue. -/
structure SumQueue where
  queue : List Nat := []
  marked : Std.TreeSet Nat := ∅

namespace SumQueue

def mark (q : SumQueue) (sum : Nat) : SumQueue :=
  if q.marked.contains sum then q else ⟨q.queue ++ [sum], q.marked.insert sum⟩

def next (q : SumQueue) : Option Nat × SumQueue :=
  match q.queue with
  | [] => (none, q)
  | sum :: rest => (some sum, ⟨rest, q.marked.erase sum⟩)

/-- Whether the queue has each marked sum once, in the order of the marks. -/
structure Shows (q : SumQueue) (m : Marks) : Prop where
  queue : q.queue = m.sums
  nodup : m.sums.Nodup
  marked : ∀ i, q.marked.contains i = true ↔ i ∈ m.sums

variable {q : SumQueue}

theorem shows_empty : Shows {} Marks.empty := ⟨rfl, .nil, by simp [Marks.empty]⟩

theorem Shows.mark (h : q.Shows m) (sum : Nat) : (q.mark sum).Shows (m.markSum sum) := by
  have hcontains : q.marked.contains sum = m.sums.contains sum :=
    Bool.eq_iff_iff.mpr ((h.marked sum).trans List.contains_iff_mem.symm)
  unfold SumQueue.mark Marks.markSum
  rw [hcontains]
  split
  · exact h
  · next hnew =>
    have hnew : sum ∉ m.sums := mt List.contains_iff_mem.mpr hnew
    refine ⟨by rw [h.queue], ?_, fun i => ?_⟩
    · exact List.nodup_append.mpr ⟨h.nodup, by simp, fun i hi j hj heq =>
        hnew (List.mem_singleton.mp hj ▸ heq ▸ hi)⟩
    · rw [Std.TreeSet.contains_insert, Bool.or_eq_true, beq_iff_eq,
        Std.LawfulEqCmp.compare_eq_iff_eq, h.marked, List.mem_append, List.mem_singleton, or_comm]
      exact or_congr_right eq_comm

theorem Shows.next (h : q.Shows m) :
    q.next.1 = m.nextSum.1 ∧ q.next.2.Shows m.nextSum.2 := by
  unfold SumQueue.next Marks.nextSum
  rw [h.queue]
  cases hsums : m.sums with
  | nil => exact ⟨rfl, h⟩
  | cons sum rest =>
    have hnodup := hsums ▸ h.nodup
    obtain ⟨hnotin, hrest⟩ := List.nodup_cons.mp hnodup
    refine ⟨rfl, rfl, hrest, fun i => ?_⟩
    rw [Std.TreeSet.contains_erase, Bool.and_eq_true, h.marked, hsums, bne_iff_ne, ne_eq,
      Std.LawfulEqCmp.compare_eq_iff_eq, List.mem_cons]
    constructor
    · rintro ⟨hne, rfl | hi⟩
      · exact absurd rfl hne
      · exact hi
    · intro hi
      exact ⟨fun heq => hnotin (heq ▸ hi), .inr hi⟩

theorem Shows.clear (m : Marks) : Shows {} m.clearSums := ⟨rfl, .nil, by simp [clearSums]⟩

theorem Shows.isEmpty (h : q.Shows m) : (!q.marked.isEmpty) = m.hasSums := by
  rw [hasSums, Bool.eq_iff_iff, Bool.not_eq_true', Bool.not_eq_true',
    Std.TreeSet.isEmpty_eq_false_iff_exists_contains_eq_true, List.isEmpty_eq_false_iff_exists_mem]
  exact exists_congr h.marked

theorem Shows.of_sums (h : q.Shows m) (hsums : m'.sums = m.sums) : q.Shows m' :=
  ⟨h.queue.trans hsums.symm, hsums ▸ h.nodup, hsums ▸ h.marked⟩

end SumQueue

end ShaDiff.Marks
