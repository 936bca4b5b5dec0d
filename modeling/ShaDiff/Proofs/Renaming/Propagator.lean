import ShaDiff.Proofs.Propagator.Memory
import ShaDiff.Proofs.Renaming.Topology
import ShaDiff.Proofs.Transcript

/-!
# Answers do not depend on indices of words

Two propagators are the same up to a renaming of the words if they are in all but what is
kept under bits, and that is the same under renamed bits (`Renamed`). Bits are only looked up,
compared and listed in an order that the topology gives. So a search finds the same literals
and clauses in both, and every call gets the same answer and leaves them the same up to the
same renaming (`Renamed.converse`).
-/

namespace ShaDiff

variable {π : Equiv.Perm Nat}

-- ---------------------------------------------------------------------------
-- Valuations
-- ---------------------------------------------------------------------------

namespace Valuation

variable {v w : Valuation} {tracked tracked' : Tracking}

structure Renamed (π : Equiv.Perm Nat) (v w : Valuation) : Prop where
  values : w.values = v.values
  fixed : w.fixed = v.fixed
  dirty : w.dirty = v.dirty.map (·.rename π)
  dirtySet : ∀ b : Bit, w.dirtySet.contains (b.rename π) = v.dirtySet.contains b

theorem Renamed.markDirty (h : v.Renamed π w) (b : Bit) :
    (v.markDirty b).Renamed π (w.markDirty (b.rename π)) := by
  unfold Valuation.markDirty
  rw [h.dirtySet]
  split
  · exact h
  · refine { h with dirty := congrArg (List.cons _) h.dirty, dirtySet := fun c => ?_ }
    have hiff : (compare (b.rename π) (c.rename π) == .eq) = (compare b c == .eq) := by
      rw [Bool.eq_iff_iff, beq_iff_eq, beq_iff_eq, Std.LawfulEqCmp.compare_eq_iff_eq,
        Std.LawfulEqCmp.compare_eq_iff_eq, Bit.rename_inj]
    simp only [Std.TreeSet.contains_insert, h.dirtySet, hiff]

theorem Renamed.setValues (h : v.Renamed π w) {values values' : Std.TreeMap Atom Bool}
    (hvalues : values' = values) : Renamed π { v with values } { w with values := values' } :=
  { h with values := hvalues }

theorem Renamed.setFixed (h : v.Renamed π w) (a : Atom) (isFixed : Bool) :
    (v.setFixed a isFixed).Renamed π (w.setFixed a isFixed) :=
  { h with fixed := by rw [Valuation.setFixed, h.fixed]; rfl }

theorem Renamed.assign (h : v.Renamed π w)
    (ht : ∀ a : Atom, tracked'[a]? = tracked[a]?.map (·.rename π)) (l : Literal) :
    (v.assign tracked l).2.Renamed π (w.assign tracked' l).2 := by
  unfold Valuation.assign
  rw [ht]
  cases tracked[l.atom]? with
  | none => exact h
  | some place => exact (h.setValues (by rw [h.values])).markDirty place.bit

theorem Renamed.unassign (h : v.Renamed π w)
    (ht : ∀ a : Atom, tracked'[a]? = tracked[a]?.map (·.rename π)) (a : Atom) :
    (v.unassign tracked a).2.Renamed π (w.unassign tracked' a).2 := by
  have hfixed : w.fixed.contains a = v.fixed.contains a := by rw [h.fixed]
  unfold Valuation.unassign
  rw [ht, hfixed]
  cases tracked[a]? with
  | none => exact h
  | some place =>
    simp only [Option.map_some]
    split
    · exact h
    · exact (h.setValues (by rw [h.values])).markDirty place.bit

theorem Renamed.foldl_unassign (h : v.Renamed π w)
    (ht : ∀ a : Atom, tracked'[a]? = tracked[a]?.map (·.rename π)) (ls : List Literal) :
    (ls.foldl (fun v l => (v.unassign tracked l.atom).2) v).Renamed π
      (ls.foldl (fun w l => (w.unassign tracked' l.atom).2) w) := by
  induction ls generalizing v w with
  | nil => exact h
  | cons l ls ih => exact ih (h.unassign ht l.atom)

theorem Renamed.takeDirty (h : v.Renamed π w) :
    w.takeDirty.1 = v.takeDirty.1.map (·.rename π) ∧ v.takeDirty.2.Renamed π w.takeDirty.2 :=
  ⟨by rw [Valuation.takeDirty, h.dirty, ← List.map_reverse]; rfl,
    { h with dirty := rfl, dirtySet := fun _ => by simp [Valuation.takeDirty] }⟩

end Valuation

namespace Propagator

variable {ρ : Type} {p q : Propagator ρ}

-- ---------------------------------------------------------------------------
-- The same propagator under other indices
-- ---------------------------------------------------------------------------

/-- The propagator with another layout: what depends on the indices of words. -/
def withLayout (p : Propagator ρ) (topology : Topology) (characteristic : Characteristic)
    (valuation : Valuation) : Propagator ρ :=
  { p with topology, characteristic, valuation }

/-- Whether `q` is `p` with other indices of words. -/
structure Renamed (π : Equiv.Perm Nat) (p q : Propagator ρ) : Prop where
  alike : p.withLayout q.topology q.characteristic q.valuation = q
  topology : p.topology.Renamed π q.topology
  condition : ∀ b : Bit, q.condition (b.rename π) = p.condition b
  valuation : p.valuation.Renamed π q.valuation

def Matches {α : Type} (π : Equiv.Perm Nat) (x y : α × Propagator ρ) : Prop :=
  x.1 = y.1 ∧ x.2.Renamed π y.2

section

variable (h : p.Renamed π q)
include h

theorem Renamed.field {α : Type*} (f : Propagator ρ → α)
    (hf : ∀ t c v, f (p.withLayout t c v) = f p) : f q = f p := by
  rw [← h.alike, hf]

theorem Renamed.config : q.config = p.config := h.field (·.config) fun _ _ _ => rfl

theorem Renamed.trail : q.trail = p.trail := h.field (·.trail) fun _ _ _ => rfl

theorem Renamed.columnCache : q.columnCache = p.columnCache :=
  h.field (·.columnCache) fun _ _ _ => rfl

theorem Renamed.sumCache : q.sumCache = p.sumCache := h.field (·.sumCache) fun _ _ _ => rfl

theorem Renamed.equations : q.equations = p.equations := h.field (·.equations) fun _ _ _ => rfl

theorem Renamed.reasons : q.reasons = p.reasons := h.field (·.reasons) fun _ _ _ => rfl

theorem Renamed.marks : q.marks = p.marks := h.field (·.marks) fun _ _ _ => rfl

theorem Renamed.status : q.status = p.status := h.field (·.status) fun _ _ _ => rfl

theorem Renamed.stream : q.stream = p.stream := h.field (·.stream) fun _ _ _ => rfl

theorem Renamed.queries : q.queries = p.queries := h.field (·.queries) fun _ _ _ => rfl

theorem Renamed.source : q.source = p.source := h.field (·.source) fun _ _ _ => rfl

theorem Renamed.congr (f : Propagator ρ → Propagator ρ)
    (hf : ∀ (p : Propagator ρ) t c v, (f p).withLayout t c v = f (p.withLayout t c v))
    (ht : ∀ p, (f p).topology = p.topology) (hc : ∀ p, (f p).characteristic = p.characteristic)
    (hv : ∀ p, (f p).valuation = p.valuation) : (f p).Renamed π (f q) where
  alike := by rw [ht, hc, hv, hf, h.alike]
  topology := by rw [ht, ht]; exact h.topology
  condition b := by rw [Propagator.condition, hc, Propagator.condition, hc]; exact h.condition b
  valuation := by rw [hv, hv]; exact h.valuation

-- ---------------------------------------------------------------------------
-- What is read
-- ---------------------------------------------------------------------------

theorem Renamed.isBuilt : q.isBuilt = p.isBuilt := congrArg Option.isSome h.topology.order

theorem Renamed.encoding : q.encoding = p.encoding := h.topology.encoding

theorem Renamed.value? : q.value? = p.value? := by
  funext a
  rw [Propagator.value?, Valuation.value?, h.valuation.values]
  rfl

theorem Renamed.literal? : q.literal? = p.literal? := by
  funext l
  exact congrArg (fun f => (f l.atom).map (· == l.polarity)) h.value?

theorem Renamed.slots (b : Bit) : q.topology.slots (b.rename π) = p.topology.slots b := by
  rw [Topology.slots, Topology.slots, Bit.isZero_rename h.topology.zero,
    Std.TreeMap.getD_eq_getD_getElem?, h.topology.atoms, Std.TreeMap.getD_eq_getD_getElem?]

theorem Renamed.slotAtoms (b : Bit) : q.topology.slotAtoms (b.rename π) = p.topology.slotAtoms b :=
  congrArg _ (h.slots b)

theorem Renamed.wordConditions (word : Nat) : q.wordConditions (π word) = p.wordConditions word := by
  simp only [Propagator.wordConditions, h.topology.wordBits, List.map_map, Function.comp_def,
    h.condition]

theorem Renamed.equationSlot? : q.equationSlot? = p.equationSlot? := by
  rw [Propagator.equationSlot?, h.config, h.encoding]
  rfl

theorem Renamed.equation? (slot : Nat) (b c : Bit) (value : Bool) (antecedent : Clause) :
    q.equation? slot (b.rename π) (c.rename π) value antecedent =
      p.equation? slot b c value antecedent := by
  rw [Propagator.equation?, h.slots, h.slots]
  rfl

theorem Renamed.antecedent (bits : List Bit) :
    q.antecedent (bits.map (·.rename π)) = p.antecedent bits := by
  simp only [Propagator.antecedent, Propagator.trueLiterals, List.flatMap_map, h.slotAtoms,
    h.value?]

theorem Renamed.forced (b : Bit) (c : Condition) : q.forced (b.rename π) c = p.forced b c := by
  rw [Propagator.forced, h.condition, h.slots, h.encoding, h.literal?]
  rfl

theorem Renamed.firstOpen? (b : Bit) (c : Condition) :
    q.firstOpen? (b.rename π) c = p.firstOpen? b c := by
  rw [Propagator.firstOpen?, h.slots, h.encoding, h.literal?]
  rfl

theorem Renamed.freshCondition (b : Bit) : q.freshCondition (b.rename π) = p.freshCondition b := by
  rw [Propagator.freshCondition, h.slots, h.encoding, h.value?]
  rfl

theorem Renamed.firstForced (bits : List (Bit × Condition)) :
    q.firstForced (bits.map (Prod.map (·.rename π) id)) = p.firstForced bits := by
  induction bits with
  | nil => rfl
  | cons x bits ih =>
    rw [List.map_cons]
    unfold Propagator.firstForced
    simp only [Prod.map, id_eq, h.forced, ih]

theorem Renamed.liveEquations : q.liveEquations = p.liveEquations := by
  rw [Propagator.liveEquations, h.equations, h.literal?]
  rfl

-- ---------------------------------------------------------------------------
-- Refreshing
-- ---------------------------------------------------------------------------

theorem Renamed.setValuation {v w : Valuation} (hv : v.Renamed π w) :
    ({ p with valuation := v } : Propagator ρ).Renamed π { q with valuation := w } :=
  { h with
    alike := congrArg (fun q : Propagator ρ => { q with valuation := w }) h.alike
    valuation := hv }

theorem Renamed.setMarks (marks : Marks) :
    ({ p with marks } : Propagator ρ).Renamed π { q with marks } :=
  h.congr (fun p => { p with marks }) (fun _ _ _ _ => rfl) (fun _ => rfl) (fun _ => rfl) fun _ => rfl

theorem Renamed.setCharacteristic (b : Bit) (c : Condition) :
    ({ p with characteristic := p.characteristic.set b c } : Propagator ρ).Renamed π
      { q with characteristic := q.characteristic.set (b.rename π) c } where
  alike := congrArg
    (fun r : Propagator ρ => { r with characteristic := q.characteristic.set (b.rename π) c }) h.alike
  topology := h.topology
  condition d := by
    have hd := h.condition d
    simp only [Propagator.condition, Characteristic.get, Characteristic.set,
      Bit.isZero_rename h.topology.zero, Std.TreeMap.getD_insert,
      Std.LawfulEqCmp.compare_eq_iff_eq, Bit.rename_inj] at hd ⊢
    split
    · rfl
    · next hz =>
      rw [if_neg hz, if_neg hz] at hd
      rw [hd]
  valuation := h.valuation

theorem Renamed.markReaders (b : Bit) :
    (p.markReaders b).Renamed π (q.markReaders (b.rename π)) := by
  unfold Propagator.markReaders
  have hreaders : q.topology.readersOf (b.rename π) = p.topology.readersOf b :=
    Topology.SameReaders.getD h.topology.readers b
  rw [hreaders, h.marks]
  exact h.setMarks _

theorem Renamed.refreshBit (b : Bit) : (p.refreshBit b).Renamed π (q.refreshBit (b.rename π)) := by
  unfold Propagator.refreshBit
  rw [h.freshCondition, h.condition]
  dsimp only
  split
  · exact h
  · split
    · exact h.setCharacteristic b _
    · exact (h.setCharacteristic b _).markReaders b

theorem Renamed.foldl_refreshBit (bits : List Bit) :
    (bits.foldl Propagator.refreshBit p).Renamed π
      ((bits.map (·.rename π)).foldl Propagator.refreshBit q) := by
  induction bits generalizing p q with
  | nil => exact h
  | cons b bits ih => exact ih (h.refreshBit b)

theorem Renamed.refresh : p.refresh.Renamed π q.refresh := by
  obtain ⟨hbits, hvaluation⟩ := h.valuation.takeDirty
  unfold Propagator.refresh
  dsimp only
  rw [hbits]
  exact (h.setValuation hvaluation).foldl_refreshBit _

-- ---------------------------------------------------------------------------
-- Columns
-- ---------------------------------------------------------------------------

theorem Renamed.contradiction (c : Clause) : Matches π (p.contradiction c) (q.contradiction c) := by
  unfold Propagator.contradiction
  split
  · exact ⟨rfl, h⟩
  · exact ⟨rfl, h.congr
      (fun p => { p with counters.conflicts := p.counters.conflicts + 1 })
      (fun _ _ _ _ => rfl) (fun _ => rfl) (fun _ => rfl) fun _ => rfl⟩

theorem Renamed.columnKey (o : Operation) (column : Nat) :
    q.columnKey (o.rename π) column = p.columnKey o column := by
  simp only [Propagator.columnKey, h.topology.inputBits, h.topology.outputBits, List.map_map,
    Function.comp_def, h.condition]
  rfl

theorem Renamed.keepColumnEquations (s : Site) (bits : List Bit) (relations : List Relation)
    (antecedent : Clause) : (p.keepColumnEquations s bits relations antecedent).Renamed π
      (q.keepColumnEquations s (bits.map (·.rename π)) relations antecedent) := by
  unfold Propagator.keepColumnEquations
  rw [h.equationSlot?]
  cases p.equationSlot? with
  | none => exact h
  | some slot =>
    simp only [List.getElem?_map, Option.bind_eq_bind, Option.bind_map, Function.comp_def,
      h.equation?]
    exact h.congr (fun p => { p with columnEquations := p.columnEquations.insert s _ })
      (fun _ _ _ _ => rfl) (fun _ => rfl) (fun _ => rfl) fun _ => rfl

omit h in
theorem suppresses_rename (hzero : π zeroWord = zeroWord) (o : Operation) (bits : List Bit) :
    suppresses (o.rename π) (bits.map (·.rename π)) = suppresses o bits := by
  simp only [suppresses, Operation.rename, List.countP_map, Function.comp_def,
    Bit.isZero_rename hzero]

theorem Renamed.columnLiterals (o : Operation) (inputBits outputBits : List Bit)
    (outcome : Column.Outcome) :
    q.columnLiterals (o.rename π) (inputBits.map (·.rename π)) (outputBits.map (·.rename π))
      outcome = p.columnLiterals o inputBits outputBits outcome := by
  simp only [Propagator.columnLiterals, suppresses_rename h.topology.zero, List.zip_map_left]
  congr 1
  split <;>
    simp [List.drop_one, ← List.map_tail, List.flatMap_map, Prod.map, h.forced]

theorem Renamed.concludeColumn (s : Site) (o : Operation) (outcome : Option Column.Outcome) :
    Matches π (p.concludeColumn s o outcome) (q.concludeColumn s (o.rename π) outcome) := by
  unfold Propagator.concludeColumn
  simp only [h.topology.inputBits, h.topology.outputBits, ← List.map_append, h.antecedent]
  cases outcome with
  | none => exact h.contradiction _
  | some outcome =>
    dsimp only
    rw [h.columnLiterals]
    exact ⟨rfl, h.keepColumnEquations s _ _ _⟩

theorem Renamed.operation (i : Nat) :
    q.topology.operations[i]? = p.topology.operations[i]?.map (·.rename π) := by
  rw [h.topology.operations, Array.getElem?_map]

theorem Renamed.countColumn : ({ p with
      counters.columns := p.counters.columns + 1 } : Propagator ρ).Renamed π
    { q with counters.columns := q.counters.columns + 1 } :=
  h.congr (fun p => { p with counters.columns := p.counters.columns + 1 })
    (fun _ _ _ _ => rfl) (fun _ => rfl) (fun _ => rfl) fun _ => rfl

theorem Renamed.setColumnCache (columnCache : ColumnCache) :
    ({ p with columnCache } : Propagator ρ).Renamed π { q with columnCache } :=
  h.congr (fun p => { p with columnCache }) (fun _ _ _ _ => rfl) (fun _ => rfl) (fun _ => rfl)
    fun _ => rfl

theorem Renamed.propagateColumn (s : Site) :
    Matches π (p.propagateColumn s) (q.propagateColumn s) := by
  have ho := h.operation s.operation
  cases hp : p.topology.operations[s.operation]? with
  | none =>
    rw [hp] at ho
    have hnone (p : Propagator ρ) (hp : p.topology.operations[s.operation]? = none) :
        p.propagateColumn s =
          (.nothing, { p with counters.columns := p.counters.columns + 1 }) := by
      unfold Propagator.propagateColumn
      dsimp only
      rw [hp]
    rw [hnone p hp, hnone q ho]
    exact ⟨rfl, h.countColumn⟩
  | some o =>
    rw [hp] at ho
    rw [propagateColumn_eq p hp, propagateColumn_eq q ho, h.columnKey, h.columnCache]
    exact (h.countColumn.setColumnCache _).concludeColumn s o _

-- ---------------------------------------------------------------------------
-- Sums
-- ---------------------------------------------------------------------------

theorem Renamed.conditionsOfWords (words : List Nat) :
    (words.map π).map q.wordConditions = words.map p.wordConditions := by
  simp only [List.map_map, Function.comp_def, h.wordConditions]

theorem Renamed.sumKey (s : SumEquation) : q.sumKey (s.rename π) = p.sumKey s := by
  simp only [Propagator.sumKey, SumEquation.rename, h.conditionsOfWords]

theorem Renamed.sumDerivation (s : SumEquation) :
    q.sumDerivation (s.rename π) = p.sumDerivation s := by
  simp only [Propagator.sumDerivation, SumEquation.rename, h.conditionsOfWords]

theorem Renamed.keepSumEquations (sum : Nat) (words : List Nat)
    (relations : List Sum.WordRelation) (antecedent : Clause) :
    (p.keepSumEquations sum words relations antecedent).Renamed π
      (q.keepSumEquations sum (words.map π) relations antecedent) := by
  unfold Propagator.keepSumEquations
  rw [h.equationSlot?]
  cases p.equationSlot? with
  | none => exact h
  | some slot =>
    have hequation (i j column : Nat) (value : Bool) :
        q.equation? slot ⟨π i, column⟩ ⟨π j, column⟩ value antecedent =
          p.equation? slot ⟨i, column⟩ ⟨j, column⟩ value antecedent :=
      h.equation? slot ⟨i, column⟩ ⟨j, column⟩ value antecedent
    simp only [List.getElem?_map, Option.bind_eq_bind, Option.bind_map, Function.comp_def,
      hequation]
    exact h.congr (fun p => { p with sumEquations := p.sumEquations.insert sum _ })
      (fun _ _ _ _ => rfl) (fun _ => rfl) (fun _ => rfl) fun _ => rfl

omit h in
theorem refinedBits_rename (words : List Nat) (refined : List (List Condition)) :
    refinedBits (words.map π) refined =
      (refinedBits words refined).map (Prod.map (·.rename π) id) := by
  simp only [refinedBits, List.zip_map_left, List.flatMap_map, List.map_flatMap, Prod.map,
    List.map_reverse, List.map_map, Function.comp_def, Bit.rename, id_eq]

theorem Renamed.bitsOfWords (words : List Nat) :
    (words.map π).flatMap q.topology.wordBits =
      (words.flatMap p.topology.wordBits).map (·.rename π) := by
  simp only [List.flatMap_map, List.map_flatMap, h.topology.wordBits]

theorem Renamed.countDerivation : ({ p with
      counters.derivations := p.counters.derivations + 1 } : Propagator ρ).Renamed π
    { q with counters.derivations := q.counters.derivations + 1 } :=
  h.congr (fun p => { p with counters.derivations := p.counters.derivations + 1 })
    (fun _ _ _ _ => rfl) (fun _ => rfl) (fun _ => rfl) fun _ => rfl

theorem Renamed.concludeSum (sum : Nat) (s : SumEquation) (derivation : Sum.Derivation) :
    Matches π (p.concludeSum sum s derivation) (q.concludeSum sum (s.rename π) derivation) := by
  unfold Propagator.concludeSum
  simp only [SumEquation.words_rename, h.bitsOfWords, h.antecedent]
  cases derivation with
  | skipped => exact ⟨rfl, h⟩
  | contradiction => exact h.contradiction _
  | refined refined relations =>
    dsimp only
    rw [refinedBits_rename, h.firstForced]
    have hequations := h.keepSumEquations sum s.words relations
      (p.antecedent (s.words.flatMap p.topology.wordBits))
    split
    · exact ⟨rfl, hequations⟩
    · exact ⟨rfl, hequations.countDerivation⟩

theorem Renamed.setSumCache (sumCache : SumCache) :
    ({ p with sumCache } : Propagator ρ).Renamed π { q with sumCache } :=
  h.congr (fun p => { p with sumCache }) (fun _ _ _ _ => rfl) (fun _ => rfl) (fun _ => rfl)
    fun _ => rfl

theorem Renamed.propagateSum (sum : Nat) : Matches π (p.propagateSum sum) (q.propagateSum sum) := by
  have hs : q.topology.sums[sum]? = p.topology.sums[sum]?.map (·.rename π) := by
    rw [h.topology.sums, Array.getElem?_map]
  cases hp : p.topology.sums[sum]? with
  | none =>
    rw [hp] at hs
    have hnone (p : Propagator ρ) (hp : p.topology.sums[sum]? = none) :
        p.propagateSum sum = (.nothing, p) := by
      unfold Propagator.propagateSum
      rw [hp]
    rw [hnone p hp, hnone q hs]
    exact ⟨rfl, h⟩
  | some s =>
    rw [hp] at hs
    rw [propagateSum_eq p hp, propagateSum_eq q hs, h.sumKey, h.sumDerivation, h.sumCache]
    exact (h.setSumCache _).concludeSum sum s _

-- ---------------------------------------------------------------------------
-- The search
-- ---------------------------------------------------------------------------

end

theorem Matches.next {x y : Finding × Propagator ρ} (h : Matches π x y)
    {f g : Propagator ρ → Finding × Propagator ρ}
    (hfg : ∀ p q : Propagator ρ, p.Renamed π q → Matches π (f p) (g q)) :
    Matches π (match (motive := _ → Finding × Propagator ρ) x with
        | (.nothing, p) => f p
        | found => found)
      (match (motive := _ → Finding × Propagator ρ) y with
        | (.nothing, q) => g q
        | found => found) := by
  obtain ⟨found, p⟩ := x
  obtain ⟨found', q⟩ := y
  obtain ⟨hfound, hrenamed⟩ := h
  obtain rfl : found = found' := hfound
  cases found with
  | nothing => exact hfg p q hrenamed
  | _ => exact ⟨rfl, hrenamed⟩

theorem Renamed.propagateColumns (h : p.Renamed π q) (turns : Nat) :
    Matches π (propagateColumns turns p) (propagateColumns turns q) := by
  induction turns generalizing p q with
  | zero => exact ⟨rfl, h⟩
  | succ turns ih =>
    unfold Propagator.propagateColumns
    rw [h.marks]
    split
    · exact ⟨rfl, h.setMarks _⟩
    · next s marks _ => exact ((h.setMarks marks).propagateColumn s).next fun p q h => ih h

theorem Renamed.propagateSums (h : p.Renamed π q) (turns : Nat) :
    Matches π (propagateSums turns p) (propagateSums turns q) := by
  induction turns generalizing p q with
  | zero => exact ⟨rfl, h⟩
  | succ turns ih =>
    unfold Propagator.propagateSums
    rw [h.marks]
    split
    · exact ⟨rfl, h⟩
    · next sum marks _ => exact ((h.setMarks marks).propagateSum sum).next fun p q h => ih h

theorem Renamed.findPropagation (h : p.Renamed π q) :
    Matches π p.findPropagation q.findPropagation := by
  unfold Propagator.findPropagation
  rw [h.marks]
  refine (h.propagateColumns _).next fun p q h => ?_
  have hwordwise : q.config.wordwise = p.config.wordwise := by rw [h.config]
  rw [hwordwise, h.marks]
  split
  · exact h.propagateSums _
  · exact ⟨rfl, h.setMarks _⟩

section

variable (h : p.Renamed π q)
include h

theorem Renamed.setStatus (status : Status) :
    ({ p with status } : Propagator ρ).Renamed π { q with status } :=
  h.congr (fun p => { p with status }) (fun _ _ _ _ => rfl) (fun _ => rfl) (fun _ => rfl)
    fun _ => rfl

theorem Renamed.setReasons (reasons : Std.TreeMap Literal Clause) :
    ({ p with reasons } : Propagator ρ).Renamed π { q with reasons } :=
  h.congr (fun p => { p with reasons }) (fun _ _ _ _ => rfl) (fun _ => rfl) (fun _ => rfl)
    fun _ => rfl

theorem Renamed.giveBatch (batch : List Literal) :
    Matches π (p.giveBatch batch) (q.giveBatch batch) := by
  unfold Propagator.giveBatch
  rw [h.literal?]
  split
  · exact ⟨rfl, h.setStatus _⟩
  · next l rest _ =>
    exact ⟨rfl, h.congr (fun p => { p with
      status := .propagating rest
      counters.propagations := p.counters.propagations + 1 })
      (fun _ _ _ _ => rfl) (fun _ => rfl) (fun _ => rfl) fun _ => rfl⟩

theorem Renamed.findBatch : Matches π p.findBatch q.findBatch := by
  have hfound := h.refresh.findPropagation
  unfold Propagator.findBatch
  revert hfound
  generalize p.refresh.findPropagation = x
  generalize q.refresh.findPropagation = y
  rintro ⟨hfound, hrenamed⟩
  obtain ⟨found, p⟩ := x
  obtain ⟨found', q⟩ := y
  obtain rfl : found = found' := hfound
  replace hrenamed : p.Renamed π q := hrenamed
  cases found with
  | nothing => exact ⟨rfl, hrenamed⟩
  | conflict c => exact ⟨rfl, hrenamed.setStatus _⟩
  | literals ls =>
    dsimp only
    rw [hrenamed.reasons]
    exact (hrenamed.setReasons _).giveBatch _

theorem Renamed.propagate : Matches π p.propagate q.propagate := by
  unfold Propagator.propagate
  rw [h.isBuilt, h.status]
  split
  · split
    · next batch _ =>
      have hgiven := h.giveBatch batch
      revert hgiven
      generalize p.giveBatch batch = x
      generalize q.giveBatch batch = y
      rintro ⟨hgiven, hrenamed⟩
      obtain ⟨given, p⟩ := x
      obtain ⟨given', q⟩ := y
      obtain rfl : given = given' := hgiven
      cases given with
      | none => exact hrenamed.findBatch
      | some l => exact ⟨rfl, hrenamed⟩
    · exact h.findBatch
    · exact ⟨rfl, h⟩
  · exact ⟨rfl, h⟩

-- ---------------------------------------------------------------------------
-- Clauses and decisions
-- ---------------------------------------------------------------------------

theorem Renamed.concludeCheck (conflict : Option Clause) :
    Matches π (p.concludeCheck conflict) (q.concludeCheck conflict) := by
  unfold Propagator.concludeCheck
  split
  · exact ⟨rfl, h⟩
  · exact ⟨rfl, h⟩
  · exact ⟨rfl, h.congr
      (fun p => { p with counters.twoBitConflicts := p.counters.twoBitConflicts + 1 })
      (fun _ _ _ _ => rfl) (fun _ => rfl) (fun _ => rfl) fun _ => rfl⟩

theorem Renamed.checkTwoBit : Matches π p.checkTwoBit q.checkTwoBit := by
  have hcount := h.congr
    (fun p => { p with counters.twoBitChecks := p.counters.twoBitChecks + 1 })
    (fun _ _ _ _ => rfl) (fun _ => rfl) (fun _ => rfl) fun _ => rfl
  have htwoBit : q.config.twoBit = p.config.twoBit := by rw [h.config]
  rw [checkTwoBit_eq, checkTwoBit_eq, htwoBit, h.encoding, h.liveEquations]
  split
  · exact ⟨rfl, h⟩
  · exact hcount.concludeCheck _

theorem Renamed.countQuery : p.countQuery.Renamed π q.countQuery :=
  h.congr Propagator.countQuery (fun _ _ _ _ => rfl) (fun _ => rfl) (fun _ => rfl) fun _ => rfl

theorem Renamed.hasClause : Matches π p.hasClause q.hasClause := by
  have hbuilt := h.isBuilt
  have hstatus := h.status
  cases hb : p.isBuilt with
  | false =>
    unfold Propagator.hasClause
    rw [hbuilt, hb, hstatus]
    split <;> exact ⟨rfl, h⟩
  | true =>
    cases hs : p.status with
    | idle =>
      have hinterval : q.config.twoBitInterval = p.config.twoBitInterval := by rw [h.config]
      rw [hasClause_of_idle hs hb, hasClause_of_idle (hstatus.trans hs) (hbuilt.trans hb),
        h.countQuery.queries, hinterval]
      have hcheck := h.countQuery.refresh.checkTwoBit
      split
      · exact ⟨rfl, h.countQuery⟩
      · revert hcheck
        generalize p.countQuery.refresh.checkTwoBit = x
        generalize q.countQuery.refresh.checkTwoBit = y
        rintro ⟨hclause, hrenamed⟩
        obtain ⟨clause, p⟩ := x
        obtain ⟨clause', q⟩ := y
        obtain rfl : clause = clause' := hclause
        cases clause with
        | none => exact ⟨rfl, hrenamed⟩
        | some c => exact ⟨rfl, hrenamed.setStatus _⟩
    | _ =>
      unfold Propagator.hasClause
      rw [hstatus, hs]
      exact ⟨rfl, h⟩

theorem Renamed.clause : Matches π p.clause q.clause := by
  unfold Propagator.clause
  rw [h.status]
  split
  · split
    · exact ⟨rfl, h.setStatus _⟩
    · exact ⟨rfl, h.setStatus _⟩
  · exact ⟨rfl, h⟩

theorem Renamed.giveReason (s : ReasonStream) : Matches π (p.giveReason s) (q.giveReason s) := by
  have hstream (stream : Option ReasonStream) := h.congr (fun p => { p with stream })
    (fun _ _ _ _ => rfl) (fun _ => rfl) (fun _ => rfl) fun _ => rfl
  unfold Propagator.giveReason
  split
  · exact ⟨rfl, hstream _⟩
  · exact ⟨rfl, hstream _⟩

theorem Renamed.reason (l : Literal) : Concur (Matches π) (p.reason l) (q.reason l) := by
  have hcount := h.congr (fun p => { p with counters.reasons := p.counters.reasons + 1 })
    (fun _ _ _ _ => rfl) (fun _ => rfl) (fun _ => rfl) fun _ => rfl
  have hstream : q.stream.filter (·.literal == l) = p.stream.filter (·.literal == l) := by
    rw [h.stream]
  have hreasons : q.reasons[l]? = p.reasons[l]? := by rw [h.reasons]
  unfold Propagator.reason
  rw [hstream, hreasons]
  split
  · exact .ok (h.giveReason _)
  · split
    · exact .error _
    · exact .ok (hcount.giveReason _)

theorem Renamed.bitsBackward (role : Role) (first : Int) (rounds : Nat) :
    q.bitsBackward role first rounds = (p.bitsBackward role first rounds).map (·.rename π) := by
  simp only [Propagator.bitsBackward, h.topology.wordAt?, List.map_flatMap, List.map_reverse,
    ← h.topology.wordBits]
  rw [← List.map_filterMap, List.flatMap_map]

theorem Renamed.decidedBits (order : Nat) :
    q.messageBits order ++ q.registerBits order =
      (p.messageBits order ++ p.registerBits order).map (·.rename π) := by
  simp only [Propagator.messageBits, Propagator.registerBits, h.bitsBackward, List.map_append]

theorem Renamed.openEquationAtom? : q.openEquationAtom? = p.openEquationAtom? := by
  simp only [Propagator.openEquationAtom?, h.liveEquations, h.value?, h.topology.tracked,
    Option.any_map, Place.rename, h.condition]

theorem Renamed.decideBits [Coin ρ] (bits : List Bit) (source : ρ) :
    q.decideBits (bits.map (·.rename π)) source = p.decideBits bits source := by
  induction bits generalizing source with
  | nil => rfl
  | cons b bits ih =>
    rw [List.map_cons]
    unfold Propagator.decideBits
    simp only [h.condition, h.firstOpen?, ih]

theorem Renamed.findDecision [Coin ρ] : Matches π p.findDecision q.findDecision := by
  have hsource (source : ρ) := h.congr (fun p => { p with source })
    (fun _ _ _ _ => rfl) (fun _ => rfl) (fun _ => rfl) fun _ => rfl
  unfold Propagator.findDecision
  rw [h.topology.order]
  split
  · exact ⟨rfl, h⟩
  · rw [h.decidedBits, h.decideBits, h.source, h.openEquationAtom?]
    split
    · exact ⟨rfl, hsource _⟩
    · split
      · exact ⟨rfl, hsource _⟩
      · exact ⟨rfl, hsource _⟩

theorem Renamed.decide [Coin ρ] : Matches π p.decide q.decide := by
  have hbranching : q.config.branching = p.config.branching := by rw [h.config]
  have hfound := h.refresh.findDecision
  unfold Propagator.decide
  rw [h.isBuilt, hbranching, h.status]
  split
  · revert hfound
    generalize p.refresh.findDecision = x
    generalize q.refresh.findDecision = y
    rintro ⟨hdecision, hrenamed⟩
    obtain ⟨decision, p⟩ := x
    obtain ⟨decision', q⟩ := y
    obtain rfl : decision = decision' := hdecision
    replace hrenamed : p.Renamed π q := hrenamed
    cases decision with
    | none => exact ⟨rfl, hrenamed⟩
    | some l =>
      exact ⟨rfl, hrenamed.congr (fun p => { p with
        status := .deciding l, counters.decisions := p.counters.decisions + 1 })
        (fun _ _ _ _ => rfl) (fun _ => rfl) (fun _ => rfl) fun _ => rfl⟩
  · exact ⟨rfl, h⟩

-- ---------------------------------------------------------------------------
-- Notifications
-- ---------------------------------------------------------------------------

theorem Renamed.assign (l : Literal) (isFixed : Bool) :
    (p.assign l isFixed).Renamed π (q.assign l isFixed) := by
  have htracked : q.topology.tracked.contains l.atom = p.topology.tracked.contains l.atom := by
    rw [Std.TreeMap.contains_eq_isSome_getElem?, h.topology.tracked, Option.isSome_map,
      ← Std.TreeMap.contains_eq_isSome_getElem?]
  have hfixed : (if isFixed then p.valuation.setFixed l.atom true else p.valuation).Renamed π
      (if isFixed then q.valuation.setFixed l.atom true else q.valuation) := by
    split
    · exact h.valuation.setFixed l.atom true
    · exact h.valuation
  unfold Propagator.assign
  rw [h.isBuilt, htracked]
  split
  · have hvalued := h.setValuation (hfixed.assign h.topology.tracked l)
    exact hvalued.congr (fun p => { p with
      trail := if isFixed then p.trail else p.trail.store l
      counters.assignments := p.counters.assignments + 1 })
      (fun _ _ _ _ => rfl) (fun _ => rfl) (fun _ => rfl) fun _ => rfl
  · exact h

theorem Renamed.openLevel : p.openLevel.Renamed π q.openLevel := by
  have htrail := h.congr (fun r => { r with trail := r.trail.push })
    (fun _ _ _ _ => rfl) (fun _ => rfl) (fun _ => rfl) fun _ => rfl
  unfold Propagator.openLevel
  dsimp only at htrail ⊢
  rw [h.status] at htrail ⊢
  split
  · exact htrail.setStatus .idle
  · exact htrail

theorem Renamed.backtrack (level : Nat) : (p.backtrack level).Renamed π (q.backtrack level) := by
  have hvaluation := h.valuation.foldl_unassign h.topology.tracked (p.trail.popTo level).1
  have htrail := (h.setValuation hvaluation).congr
    (fun r => { r with trail := (p.trail.popTo level).2 })
    (fun _ _ _ _ => rfl) (fun _ => rfl) (fun _ => rfl) fun _ => rfl
  have hrefreshed := htrail.refresh
  unfold Propagator.backtrack
  rw [h.trail]
  dsimp only at hrefreshed ⊢
  rw [hrefreshed.literal?, hrefreshed.reasons]
  exact hrefreshed.congr (fun r => { r with
      status := .idle
      stream := none
      reasons := _
      counters.backtracks := r.counters.backtracks + 1 })
    (fun _ _ _ _ => rfl) (fun _ => rfl) (fun _ => rfl) fun _ => rfl

-- ---------------------------------------------------------------------------
-- Dialogues
-- ---------------------------------------------------------------------------

theorem Renamed.answer [Coin ρ] (c : Call) : Concur (Matches π) (p.answer c) (q.answer c) := by
  cases c with
  | assign l isFixed => exact .ok ⟨rfl, h.assign l isFixed⟩
  | openLevel => exact .ok ⟨rfl, h.openLevel⟩
  | backtrack level => exact .ok ⟨rfl, h.backtrack level⟩
  | model ls => exact .ok ⟨rfl, h⟩
  | decide => exact .ok ⟨congrArg Answer.literal h.decide.1, h.decide.2⟩
  | propagate => exact .ok ⟨congrArg Answer.literal h.propagate.1, h.propagate.2⟩
  | reason l => exact (h.reason l).map fun _ _ hgiven => ⟨congrArg Answer.literal hgiven.1, hgiven.2⟩
  | hasClause => exact .ok ⟨congrArg Answer.verdict h.hasClause.1, h.hasClause.2⟩
  | clause => exact .ok ⟨congrArg Answer.literal h.clause.1, h.clause.2⟩

end

/-- A dialogue goes the same way with propagators that are the same up to a renaming. -/
theorem Renamed.converse [Coin ρ] (h : p.Renamed π q) (calls : List Call) :
    Concur (Matches π) (p.converse calls) (q.converse calls) := by
  induction calls generalizing p q with
  | nil => exact .ok ⟨rfl, h⟩
  | cons c calls ih =>
    unfold Propagator.converse
    refine (h.answer c).bind fun x y hxy => ?_
    obtain ⟨a, p'⟩ := x
    obtain ⟨a', q'⟩ := y
    obtain ⟨rfl, hnext⟩ : a = a' ∧ p'.Renamed π q' := hxy
    exact (ih hnext).bind fun x y hxy => .ok ⟨congrArg (a :: ·) hxy.1, hxy.2⟩

end Propagator

end ShaDiff
