import ShaDiff.Proofs.Topology.Build
import ShaDiff.Rule

/-!
# What is remembered and marked

Results are remembered for good, so what holds of every remembered result has to hold
independent of when it was found. Of a column that is so if the result is that of
propagation; a rule database may put in other results, but these have no relations.
Of a sum it is so as the key determines the words: sums that define words of one role
have as many words each. All marked columns were marked by a reader of a bit.
-/

namespace ShaDiff

-- ---------------------------------------------------------------------------
-- Caches
-- ---------------------------------------------------------------------------

namespace Cache

variable {κ β : Type} [Ord κ] [Std.TransOrd κ] [Std.LawfulEqOrd κ] {P : κ → β → Prop}
  {c : Cache κ β} {k : κ} {v : β}

def All (P : κ → β → Prop) (c : Cache κ β) : Prop := ∀ k v, c.entries[k]? = some v → P k v

omit [Std.LawfulEqOrd κ] in
theorem all_empty (limit : Nat) : (empty limit : Cache κ β).All P := by
  intro k v h
  simp [empty] at h

theorem all_insert_entries {entries : Std.TreeMap κ β} (h : ∀ k v, entries[k]? = some v → P k v)
    (hp : P k v) : ∀ l w, (entries.insert k v)[l]? = some w → P l w := by
  intro l w hw
  rw [Std.TreeMap.getElem?_insert] at hw
  split at hw
  · rename_i heq
    rw [← Std.LawfulEqCmp.compare_eq_iff_eq.mp heq, ← Option.some.inj hw]
    exact hp
  · exact h l w hw

theorem All.insert (h : c.All P) (hp : P k v) : (c.insert k v).All P := by
  unfold Cache.insert
  split
  · exact h
  · split
    · exact all_insert_entries (fun l w hw => by simp at hw) hp
    · exact all_insert_entries h hp

theorem All.getOrInsert (h : c.All P) {f : κ → β} (hf : P k (f k)) :
    P k (c.getOrInsert k f).1 ∧ (c.getOrInsert k f).2.All P := by
  unfold Cache.getOrInsert Cache.get?
  cases hk : c.entries[k]? with
  | some w => exact ⟨h k w hk, h⟩
  | none => exact ⟨hf, All.insert (c := { c with misses := c.misses + 1 }) h hf⟩

end Cache

-- ---------------------------------------------------------------------------
-- Columns
-- ---------------------------------------------------------------------------

/-- Whether a result of a column is that of propagation or, where rules may have been
read, has no relations. -/
def ColumnKey.Answers (rules : Prop) (k : ColumnKey) (result : Option Column.Outcome) : Prop :=
  result = Column.propagate k.gate k.inputs k.outputs ∨
    rules ∧ ∀ outcome, result = some outcome → outcome.relations = []

theorem Rule.answers (r : Rule) : r.key.Answers True r.outcome := by
  refine .inr ⟨trivial, fun outcome h => ?_⟩
  unfold Rule.outcome at h
  split at h
  · cases h
  · rw [← Option.some.inj h]

theorem Rule.all_load {P : ColumnKey → Option Column.Outcome → Prop} {cache : ColumnCache}
    (h : cache.All P) (count : Nat) {lines : List (Text.Line × Nat)}
    (hlines : ∀ x ∈ lines, ∀ r, ofLine x.2 x.1 = .ok (some r) → P r.key r.outcome) :
    (load cache count lines).2.All P := by
  induction lines generalizing cache count with
  | nil => exact h
  | cons line lines ih =>
    obtain ⟨line, number⟩ := line
    obtain ⟨hline, hlines⟩ := List.forall_mem_cons.mp hlines
    unfold load
    split
    · exact h
    · exact ih h count hlines
    · next r hr => exact ih (h.insert (hline r hr)) (count + 1) hlines

-- ---------------------------------------------------------------------------
-- Sums
-- ---------------------------------------------------------------------------

structure SumShape (size : Nat) (r : Role) (positive negative : List (List Condition)) : Prop where
  length_positive : positive.length = r.addends
  length_negative : negative.length = 1
  length_word : ∀ w ∈ positive ++ negative, w.length = size

def SumKey.Answers (size : Nat) (k : SumKey) (result : Sum.Derivation) : Prop :=
  ∀ positive negative, SumShape size k.role positive negative →
    (positive ++ negative).flatten = k.conditions → result = Sum.propagate positive negative

theorem eq_of_flatten_eq {size : Nat} {vs ws : List (List α)} (hl : vs.length = ws.length)
    (hv : ∀ v ∈ vs, v.length = size) (hw : ∀ w ∈ ws, w.length = size)
    (h : vs.flatten = ws.flatten) : vs = ws := by
  induction vs generalizing ws with
  | nil => exact (List.eq_nil_of_length_eq_zero hl.symm).symm
  | cons v vs ih =>
    cases ws with
    | nil => cases hl
    | cons w ws =>
      obtain ⟨hv, hvs⟩ := List.forall_mem_cons.mp hv
      obtain ⟨hw, hws⟩ := List.forall_mem_cons.mp hw
      obtain ⟨rfl, hrest⟩ := List.append_inj h (hv.trans hw.symm)
      rw [ih (Nat.succ.inj hl) hvs hws hrest]

theorem SumKey.answers_propagate {size : Nat} {r : Role} {positive negative : List (List Condition)}
    (h : SumShape size r positive negative) :
    SumKey.Answers size ⟨r, (positive ++ negative).flatten⟩ (Sum.propagate positive negative) := by
  intro positive' negative' h' heq
  have hlength : positive'.length = positive.length := h'.length_positive.trans h.length_positive.symm
  have hwords := eq_of_flatten_eq
    (by rw [List.length_append, List.length_append, hlength, h.length_negative, h'.length_negative])
    h'.length_word h.length_word heq
  obtain ⟨rfl, rfl⟩ := List.append_inj hwords hlength
  rfl

-- ---------------------------------------------------------------------------
-- Marks
-- ---------------------------------------------------------------------------

namespace Marks

variable {m m' : Marks} {size : Nat}

def Below (size : Nat) (m : Marks) : Prop := ∀ s, m.marked.contains s = true → s.column < size

theorem below_empty (size : Nat) : empty.Below size := by
  intro s h
  simp [empty] at h

theorem Below.markColumn (h : m.Below size) {s : Site} (hs : s.column < size) :
    (m.markColumn s).Below size := by
  unfold Marks.markColumn
  dsimp only
  split
  · exact h
  · intro u hu
    simp only [Std.TreeSet.contains_insert, Bool.or_eq_true, beq_iff_eq,
      Std.LawfulEqCmp.compare_eq_iff_eq] at hu
    rcases hu with rfl | hu
    · exact hs
    · exact h u hu

theorem Below.markSum (h : m.Below size) (sum : Nat) : (m.markSum sum).Below size := by
  unfold Marks.markSum
  split <;> exact h

theorem contains_of_firstMarked {marked : Std.TreeSet Site} {places rest : List Site} {s : Site}
    (h : firstMarked marked places = some (s, rest)) : marked.contains s = true := by
  induction places with
  | nil => cases h
  | cons u places ih =>
    unfold firstMarked at h
    split at h
    · rename_i hu
      obtain ⟨rfl, -⟩ := Prod.mk.inj (Option.some.inj h)
      exact hu
    · exact ih h

theorem contains_of_nextQueued {s : Site} (h : m.nextQueued.1 = some s) :
    m.marked.contains s = true := by
  unfold nextQueued at h
  split at h
  · next hs => exact Option.some.inj h ▸ contains_of_firstMarked hs
  · split at h
    · next hs => exact Option.some.inj h ▸ contains_of_firstMarked hs
    · cases h

theorem contains_of_nextColumn {s : Site} (h : m.nextColumn.1 = some s) :
    m.marked.contains s = true := by
  unfold nextColumn at h
  dsimp only at h
  split at h
  · split at h
    · next hs => exact Option.some.inj h ▸ hs
    · exact contains_of_nextQueued (m := { m with last? := none }) h
  · exact contains_of_nextQueued (m := { m with last? := none }) h

theorem Below.erase {s : Site} (h : m.Below size) (hm : m'.marked = m.marked.erase s) :
    m'.Below size := by
  intro u hu
  rw [hm, Std.TreeSet.contains_erase, Bool.and_eq_true] at hu
  exact h u hu.2

theorem Below.nextQueued (h : m.Below size) : m.nextQueued.2.Below size := by
  unfold Marks.nextQueued
  split
  · exact h.erase rfl
  · split
    · exact h.erase rfl
    · exact h

theorem Below.nextColumn (h : m.Below size) :
    (∀ s, m.nextColumn.1 = some s → s.column < size) ∧ m.nextColumn.2.Below size := by
  refine ⟨fun s hs => h s (contains_of_nextColumn hs), ?_⟩
  have huntouched : ({ m with last? := none } : Marks).Below size := h
  unfold Marks.nextColumn
  dsimp only
  split
  · split
    · exact h.erase rfl
    · exact huntouched.nextQueued
  · exact huntouched.nextQueued

theorem Below.nextSum (h : m.Below size) : m.nextSum.2.Below size := by
  unfold Marks.nextSum
  split <;> exact h

end Marks

-- ---------------------------------------------------------------------------
-- Tables
-- ---------------------------------------------------------------------------

section

variable {κ β : Type} [Ord κ] [Std.TransOrd κ] [Std.LawfulEqOrd κ] {m : Std.TreeMap κ β} {k : κ}
  {v : β}

theorem getElem?_of_filter {f : κ → β → Bool} (h : (m.filter f)[k]? = some v) :
    m[k]? = some v := by
  rw [Std.TreeMap.getElem?_filter'] at h
  exact (Option.filter_eq_some_iff.mp h).1

theorem exists_of_mem_values (h : v ∈ m.values) : ∃ k : κ, m[k]? = some v := by
  have hvalues : m.values = m.toList.map (·.2) := by
    show m.foldr (fun _ v l => v :: l) [] = _
    rw [Std.TreeMap.foldr_eq_foldr_toList]
    induction m.toList with
    | nil => rfl
    | cons x xs ih => rw [List.foldr_cons, ih, List.map_cons]
  rw [hvalues] at h
  obtain ⟨⟨k, v⟩, hmem, rfl⟩ := List.mem_map.mp h
  exact ⟨k, Std.TreeMap.mem_toList_iff_getElem?_eq_some.mp hmem⟩

end

end ShaDiff
