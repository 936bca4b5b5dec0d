import ShaDiff.Proofs.Propagator.Antecedent

/-!
# What propagation finds is entailed

Propagation of a column or sum loses no pair. So where the antecedent is false it finds
no contradiction, what it forces is true, and its relations hold. That makes every
reason and every blocking clause entailed, and every equation valid, whatever the values
are later on. Propagation of all that is marked repeats this until something is found.
-/

namespace ShaDiff

open Condition (Allow)

def Finding.Entailed (t : Topology) : Finding → Prop
  | .nothing => True
  | .literals ls => ∀ l c, (l, c) ∈ ls → t.Entails c
  | .conflict c => t.Entails c

namespace Topology

variable {κ : Type} [Ord κ] [Std.TransOrd κ] [Std.LawfulEqOrd κ] {t : Topology}
  {m : Std.TreeMap κ (List Equation)}

def ValidatesAll (t : Topology) (m : Std.TreeMap κ (List Equation)) : Prop :=
  ∀ (k : κ) es, m[k]? = some es → ∀ e ∈ es, t.Validates e

theorem ValidatesAll.insert (h : t.ValidatesAll m) {es : List Equation}
    (hes : ∀ e ∈ es, t.Validates e) (k : κ) : t.ValidatesAll (m.insert k es) :=
  Cache.all_insert_entries (P := fun _ es => ∀ e ∈ es, t.Validates e) h hes

end Topology

namespace Propagator

variable {ρ : Type} {rules : Prop} {p q : Propagator ρ} {σ : Bit → Pair} {v : Atom → Bool}

/-- Whether a propagator is ready to propagate: its conditions are those of the
valuation, what it remembers was found by propagation or read from rules, and its
equations are valid. -/
structure Ready (rules : Prop) (p : Propagator ρ) : Prop where
  built : ∃ order, p.topology.Built order
  wordSize_le : p.topology.wordSize ≤ wordSizeMax
  reflects : p.topology.Reflects p.valuation p.characteristic
  marks : p.marks.Below p.topology.wordSize
  columnCache : p.columnCache.All (ColumnKey.Answers rules)
  sumCache : p.sumCache.All (SumKey.Answers p.topology.wordSize)
  columnEquations : p.topology.ValidatesAll p.columnEquations
  sumEquations : p.topology.ValidatesAll p.sumEquations

/-- What is found from a propagator, and what the search leaves as it was. Without rules
the finding is entailed. -/
structure Finds (rules : Prop) (p : Propagator ρ) (found : Finding × Propagator ρ) : Prop where
  ready : found.2.Ready rules
  topology : found.2.topology = p.topology
  valuation : found.2.valuation = p.valuation
  characteristic : found.2.characteristic = p.characteristic
  reasons : found.2.reasons = p.reasons
  status : found.2.status = p.status
  entailed : ¬ rules → found.1.Entailed p.topology

theorem Ready.finds_nothing (h : p.Ready rules) : p.Finds rules (.nothing, p) :=
  ⟨h, rfl, rfl, rfl, rfl, rfl, fun _ => trivial⟩

theorem Finds.trans {found : Finding × Propagator ρ} (h : p.Finds rules (.nothing, q))
    (hfound : q.Finds rules found) : p.Finds rules found where
  ready := hfound.ready
  topology := hfound.topology.trans h.topology
  valuation := hfound.valuation.trans h.valuation
  characteristic := hfound.characteristic.trans h.characteristic
  reasons := hfound.reasons.trans h.reasons
  status := hfound.status.trans h.status
  entailed hrules := h.topology ▸ hfound.entailed hrules

theorem Ready.finds_contradiction (h : p.Ready rules) {c : Clause}
    (hc : ¬ rules → p.topology.Entails c) : p.Finds rules (p.contradiction c) := by
  unfold contradiction
  split
  · exact h.finds_nothing
  · exact ⟨{ h with }, rfl, rfl, rfl, rfl, rfl, hc⟩

theorem entailed_withReasons {t : Topology} {ls : List Literal} {antecedent : Clause}
    (h : ∀ l ∈ ls, t.Entails (l :: antecedent)) : (withReasons ls antecedent).Entailed t := by
  unfold withReasons
  split
  · trivial
  · intro l c hmem
    obtain ⟨k, hk, heq⟩ := List.mem_map.mp hmem
    obtain ⟨rfl, rfl⟩ := Prod.mk.inj heq
    exact h k hk

-- ---------------------------------------------------------------------------
-- Columns
-- ---------------------------------------------------------------------------

/-- Where its antecedent is false, a column has an outcome that agrees with the pairs. -/
theorem Ready.column_sound (h : p.Ready rules) {o : Operation} (ho : o ∈ p.topology.operations)
    {j : Nat} (hj : j < p.topology.wordSize) (hσ : p.topology.Instances σ)
    (hv : p.topology.Reads σ v)
    (ha : ¬ (p.antecedent (p.topology.inputBits o j ++ p.topology.outputBits o j)).Holds v) :
    ∃ outcome, Column.propagate o.gate ((p.topology.inputBits o j).map p.condition)
        ((p.topology.outputBits o j).map p.condition) = some outcome ∧
      Allow outcome.inputs ((p.topology.inputBits o j).map σ) ∧
      Allow outcome.outputs ((p.topology.outputBits o j).map σ) ∧
      ∀ r ∈ outcome.relations, ∀ b c,
        (p.topology.inputBits o j ++ p.topology.outputBits o j)[r.first]? = some b →
        (p.topology.inputBits o j ++ p.topology.outputBits o j)[r.second]? = some c →
        ((σ b).differs ^^ (σ c).differs) = r.value := by
  obtain ⟨order, hbuilt⟩ := h.built
  have hallow := allows_of_antecedent h.reflects hσ hv ha
  have himage := hbuilt.image_eq hσ ho hj
  obtain ⟨outcome, hsome, hi, hout, hrelations⟩ := Column.propagate_sound
    (Allow.map fun b hb => hallow b (List.mem_append_left _ hb))
    (Allow.map fun b hb => hallow b (List.mem_append_right _ hb))
    (by rw [List.length_map]; exact himage)
  refine ⟨outcome, hsome, hi, hout, fun r hr b c hb hc => ?_⟩
  obtain ⟨x, y, hx, hy, hvalue⟩ := hrelations r hr
  rw [← List.map_append, List.getElem?_map, hb] at hx
  rw [← List.map_append, List.getElem?_map, hc] at hy
  obtain rfl := Option.some.inj hx
  obtain rfl := Option.some.inj hy
  exact hvalue

theorem Ready.keepColumnEquations (h : p.Ready rules) {s : Site} {bits : List Bit}
    {relations : List Relation} {antecedent : Clause}
    (hrelations : ∀ r ∈ relations, ∀ b c, bits[r.first]? = some b → bits[r.second]? = some c →
      ∀ σ v, p.topology.Instances σ → p.topology.Reads σ v → ¬ antecedent.Holds v →
        ((σ b).differs ^^ (σ c).differs) = r.value) {r : Finding}
    (hr : ¬ rules → r.Entailed p.topology) :
    p.Finds rules (r, p.keepColumnEquations s bits relations antecedent) := by
  unfold Propagator.keepColumnEquations
  split
  · exact ⟨h, rfl, rfl, rfl, rfl, rfl, hr⟩
  · rename_i slot hslot
    refine ⟨{ h with columnEquations := h.columnEquations.insert (fun e he => ?_) s }, rfl, rfl,
      rfl, rfl, rfl, hr⟩
    simp only [List.mem_filterMap, bind, Option.bind_eq_some_iff] at he
    obtain ⟨r, hr, b, hb, c, hc, he⟩ := he
    exact validates_equation hslot he (hrelations r hr b c hb hc)

section

variable {o : Operation} {s : Site} {result : Option Column.Outcome}

theorem Ready.finds_contradicted (h : p.Ready rules) (ho : o ∈ p.topology.operations)
    (hs : s.column < p.topology.wordSize)
    (hresult : ColumnKey.Answers rules ⟨o.gate, (p.topology.inputBits o s.column).map p.condition,
      (p.topology.outputBits o s.column).map p.condition⟩ result) (hnone : result = none) :
    p.Finds rules (p.contradiction
      (p.antecedent (p.topology.inputBits o s.column ++ p.topology.outputBits o s.column))) := by
  refine h.finds_contradiction fun hrules σ v hσ hv => Classical.byContradiction fun ha => ?_
  obtain ⟨outcome, hsome, -⟩ := h.column_sound ho hs hσ hv ha
  have heq := hresult.resolve_right fun hr => hrules hr.1
  exact absurd (hnone.symm.trans (heq.trans hsome)) (by simp)

theorem Ready.finds_outcome (h : p.Ready rules) (ho : o ∈ p.topology.operations)
    (hs : s.column < p.topology.wordSize)
    (hresult : ColumnKey.Answers rules ⟨o.gate, (p.topology.inputBits o s.column).map p.condition,
      (p.topology.outputBits o s.column).map p.condition⟩ result)
    {outcome : Column.Outcome} (houtcome : result = some outcome) :
    p.Finds rules
      (withReasons (p.columnLiterals o (p.topology.inputBits o s.column)
          (p.topology.outputBits o s.column) outcome)
        (p.antecedent (p.topology.inputBits o s.column ++ p.topology.outputBits o s.column)),
        p.keepColumnEquations s (p.topology.inputBits o s.column ++
          p.topology.outputBits o s.column) outcome.relations
        (p.antecedent (p.topology.inputBits o s.column ++ p.topology.outputBits o s.column))) := by
  subst houtcome
  refine h.keepColumnEquations (fun r hr b c hb hc σ v hσ hv ha => ?_) fun hrules => ?_
  · rcases hresult with heq | ⟨-, hnone⟩
    · obtain ⟨outcome', hsome, -, -, hrelations⟩ := h.column_sound ho hs hσ hv ha
      obtain rfl := Option.some.inj (heq.trans hsome)
      exact hrelations r hr b c hb hc
    · rw [hnone outcome rfl] at hr
      cases hr
  · refine entailed_withReasons fun l hl σ v hσ hv => ?_
    obtain ⟨b, c, hforced, hmem⟩ := exists_of_mem_columnLiterals hl
    refine holds_reason hv hforced fun ha => ?_
    obtain ⟨outcome', hsome, hi, hout, -⟩ := h.column_sound ho hs hσ hv ha
    have heq := hresult.resolve_right fun hr => hrules hr.1
    obtain rfl := Option.some.inj (heq.trans hsome)
    exact hmem.elim (allows_of_mem_zip hi) (allows_of_mem_zip hout)

end

theorem Ready.finds_propagateColumn (h : p.Ready rules) {s : Site}
    (hs : s.column < p.topology.wordSize) : p.Finds rules (p.propagateColumn s) := by
  unfold propagateColumn
  dsimp only
  split
  · exact ⟨{ h with }, rfl, rfl, rfl, rfl, rfl, fun _ => trivial⟩
  · rename_i o hget
    have ho := Array.mem_of_getElem? hget
    have hcache := h.columnCache.getOrInsert (k := ⟨o.gate, (p.topology.inputBits o s.column).map
      p.condition, (p.topology.outputBits o s.column).map p.condition⟩)
      (f := fun k => Column.propagate k.gate k.inputs k.outputs) (.inl rfl)
    have hkept : p.Finds rules (.nothing, { p with
        columnCache := (p.columnCache.getOrInsert _ _).2
        counters.columns := p.counters.columns + 1 }) :=
      ⟨{ h with columnCache := hcache.2 }, rfl, rfl, rfl, rfl, rfl, fun _ => trivial⟩
    refine hkept.trans ?_
    split
    · rename_i hnone
      exact hkept.ready.finds_contradicted ho hs hcache.1 hnone
    · rename_i outcome hsome
      exact hkept.ready.finds_outcome ho hs hcache.1 hsome

-- ---------------------------------------------------------------------------
-- Sums
-- ---------------------------------------------------------------------------

theorem map_range_append (f : α → β) (xs ys : List α) (d : α) :
    (List.range xs.length).map (fun i => f ((xs ++ ys).getD i d)) = xs.map f ∧
      ((List.range ys.length).map (xs.length + ·)).map (fun i => f ((xs ++ ys).getD i d)) =
        ys.map f := by
  constructor
  · refine List.ext_getElem (by simp) fun i h1 h2 => ?_
    rw [List.length_map] at h2
    simp [List.getD_eq_getElem?_getD, List.getElem?_append_left h2, h2]
  · refine List.ext_getElem (by simp) fun i h1 h2 => ?_
    rw [List.length_map] at h2
    simp [List.getD_eq_getElem?_getD, h2]

/-- The pairs of the words of a sum, counted through. -/
def pairTable (σ : Bit → Pair) (words : List Nat) (i column : Nat) : Pair :=
  σ ⟨words.getD i zeroWord, column⟩

theorem pairTable_of_getElem? {words : List Nat} {i w : Nat} (h : words[i]? = some w)
    (column : Nat) : pairTable σ words i column = σ ⟨w, column⟩ := by
  rw [pairTable, List.getD_eq_getElem?_getD, h]
  rfl

theorem sumShape_of_shaped (h : p.topology.Shaped) {s : SumEquation} (hs : s ∈ p.topology.sums) :
    SumShape p.topology.wordSize s.role (s.positive.map p.wordConditions)
      (s.negative.map p.wordConditions) := by
  obtain ⟨hpositive, hnegative⟩ := h s hs
  refine ⟨by rw [List.length_map, hpositive], by rw [List.length_map, hnegative], ?_⟩
  rw [← List.map_append]
  intro w hw
  obtain ⟨word, -, rfl⟩ := List.mem_map.mp hw
  simp [wordConditions, Topology.wordBits]

theorem Ready.sumShape (h : p.Ready rules) {s : SumEquation} (hs : s ∈ p.topology.sums) :
    SumShape p.topology.wordSize s.role (s.positive.map p.wordConditions)
      (s.negative.map p.wordConditions) := by
  obtain ⟨order, hbuilt⟩ := h.built
  exact sumShape_of_shaped (fun _ => hbuilt.sumShape) hs

/-- Where its antecedent is false, what is derived from a sum agrees with the pairs. -/
theorem Ready.sum_sound (h : p.Ready rules) {s : SumEquation} (hs : s ∈ p.topology.sums)
    (hσ : p.topology.Instances σ) (hv : p.topology.Reads σ v)
    (ha : ¬ (p.antecedent (s.words.flatMap p.topology.wordBits)).Holds v) :
    (Sum.propagate (s.positive.map p.wordConditions) (s.negative.map p.wordConditions)).Respects
      s.words.length p.topology.wordSize (pairTable σ s.words) := by
  obtain ⟨order, hbuilt⟩ := h.built
  have hallow := allows_of_antecedent h.reflects hσ hv ha
  have hconditions := map_range_append p.wordConditions s.positive s.negative zeroWord
  have hrows (word : Nat) : p.wordConditions word =
      (List.range p.topology.wordSize).map fun j => p.condition ⟨word, j⟩ := by
    rw [wordConditions, Topology.wordBits, List.map_map]
    rfl
  rw [← hconditions.1, ← hconditions.2]
  simp only [hrows]
  have hle : p.topology.wordSize ≤ Modular.bitsMax := by
    have := h.wordSize_le
    simp only [wordSizeMax, Modular.bitsMax] at this ⊢
    omega
  have hrow (i : Nat) (hi : i < s.words.length) : Allow
      (Sum.row p.topology.wordSize (fun i j => p.condition ⟨s.words.getD i zeroWord, j⟩) i)
      (Sum.row p.topology.wordSize (pairTable σ s.words) i) := by
    refine Allow.map fun j hj => hallow _ (List.mem_flatMap.mpr ⟨s.words.getD i zeroWord, ?_, ?_⟩)
    · rw [List.getD_eq_getElem?_getD, List.getElem?_eq_getElem hi]
      exact List.getElem_mem hi
    · exact List.mem_map.mpr ⟨j, hj, rfl⟩
  refine Sum.propagate_sound ?_ hle hrow ?_
  · rw [← List.range_add, SumEquation.words, List.length_append]
  · have hwords := map_range_append (fun w => Sum.signedDifference
      ((List.range p.topology.wordSize).map fun j => σ ⟨w, j⟩)) s.positive s.negative zeroWord
    have hmodulus : Modular.modulus p.topology.wordSize = 1 <<< p.topology.wordSize := by
      rw [Modular.modulus, Nat.min_eq_left hle]
    have hdvd := Sum.dvd_signedDifferences (hbuilt.sum_holds hσ.first s hs)
      (hbuilt.sum_holds hσ.second s hs)
    rw [hmodulus]
    rw [← hwords.1, ← hwords.2] at hdvd
    exact hdvd

theorem allows_of_mem_refinedBits {words : List Nat} {refined : List (List Condition)}
    {size : Nat} (h : ∀ i < words.length, ∃ cs, refined[i]? = some cs ∧
      Allow cs (Sum.row size (pairTable σ words) i))
    {b : Bit} {c : Condition} (hmem : (b, c) ∈ refinedBits words refined) :
    c.allows (σ b) = true := by
  simp only [refinedBits, List.mem_flatMap, List.mem_reverse, List.mem_map, Prod.mk.injEq] at hmem
  obtain ⟨⟨word, conditions⟩, hzip, ⟨c, column⟩, hc, rfl, rfl⟩ := hmem
  obtain ⟨i, hi⟩ := List.getElem?_of_mem hzip
  obtain ⟨hword, hconditions⟩ := List.getElem?_zip_eq_some.mp hi
  obtain ⟨cs, hcs, hallow⟩ := h i (List.getElem?_eq_some_iff.mp hword).1
  obtain rfl := Option.some.inj (hconditions.symm.trans hcs)
  have hc := List.mem_zipIdx_iff_getElem?.mp hc
  obtain ⟨hlt, hc⟩ := List.getElem?_eq_some_iff.mp hc
  have hget := (List.forall₂_iff_get.mp hallow).2 column hlt (hallow.length_eq ▸ hlt)
  simp only [List.get_eq_getElem, hc, Sum.row, List.getElem_map, List.getElem_range] at hget
  rwa [pairTable_of_getElem? hword] at hget

theorem exists_of_mem_firstForced {refined : List (Bit × Condition)} {l : Literal}
    (h : l ∈ p.firstForced refined) : ∃ b c, (b, c) ∈ refined ∧ l ∈ p.forced b c := by
  induction refined with
  | nil => cases h
  | cons x refined ih =>
    obtain ⟨b, c⟩ := x
    unfold firstForced at h
    split at h
    · obtain ⟨b, c, hmem, hl⟩ := ih h
      exact ⟨b, c, .tail _ hmem, hl⟩
    · exact ⟨b, c, .head _, h⟩

theorem Ready.keepSumEquations (h : p.Ready rules) (sum : Nat) {words : List Nat}
    {relations : List Sum.WordRelation} {antecedent : Clause}
    (hrelations : ∀ r ∈ relations, ∀ w w', words[r.first]? = some w → words[r.second]? = some w' →
      ∀ σ v, p.topology.Instances σ → p.topology.Reads σ v → ¬ antecedent.Holds v →
        ((σ ⟨w, r.column⟩).differs ^^ (σ ⟨w', r.column⟩).differs) = r.value) :
    p.Finds rules (.nothing, p.keepSumEquations sum words relations antecedent) := by
  unfold Propagator.keepSumEquations
  split
  · exact h.finds_nothing
  · rename_i slot hslot
    refine ⟨{ h with sumEquations := h.sumEquations.insert (fun e he => ?_) sum }, rfl, rfl, rfl,
      rfl, rfl, fun _ => trivial⟩
    simp only [List.mem_filterMap, bind, Option.bind_eq_some_iff] at he
    obtain ⟨r, hr, w, hw, w', hw', he⟩ := he
    exact validates_equation hslot he (hrelations r hr w w' hw hw')

section

variable {s : SumEquation} {refined : List (List Condition)} {relations : List Sum.WordRelation}

theorem Ready.relation_sound (h : p.Ready rules) (hs : s ∈ p.topology.sums)
    (hrefined : Sum.propagate (s.positive.map p.wordConditions) (s.negative.map p.wordConditions) =
      .refined refined relations) : ∀ r ∈ relations, ∀ w w', s.words[r.first]? = some w →
      s.words[r.second]? = some w' → ∀ σ v, p.topology.Instances σ → p.topology.Reads σ v →
      ¬ (p.antecedent (s.words.flatMap p.topology.wordBits)).Holds v →
        ((σ ⟨w, r.column⟩).differs ^^ (σ ⟨w', r.column⟩).differs) = r.value := by
  intro r hr w w' hw hw' σ v hσ hv ha
  have hsound := h.sum_sound hs hσ hv ha
  rw [hrefined] at hsound
  obtain ⟨-, -, -, hvalue⟩ := hsound.2 r hr
  rwa [pairTable_of_getElem? hw, pairTable_of_getElem? hw'] at hvalue

theorem Ready.refined_sound (h : p.Ready rules) (hs : s ∈ p.topology.sums)
    (hrefined : Sum.propagate (s.positive.map p.wordConditions) (s.negative.map p.wordConditions) =
      .refined refined relations) (hσ : p.topology.Instances σ) (hv : p.topology.Reads σ v)
    (ha : ¬ (p.antecedent (s.words.flatMap p.topology.wordBits)).Holds v) {b : Bit} {c : Condition}
    (hmem : (b, c) ∈ refinedBits s.words refined) : c.allows (σ b) = true := by
  have hsound := h.sum_sound hs hσ hv ha
  rw [hrefined] at hsound
  exact allows_of_mem_refinedBits hsound.1 hmem

end

theorem Ready.finds_propagateSum (h : p.Ready rules) (sum : Nat) :
    p.Finds rules (p.propagateSum sum) := by
  unfold propagateSum
  split
  · exact h.finds_nothing
  · rename_i s hget
    have hs := Array.mem_of_getElem? hget
    have hcache := h.sumCache.getOrInsert (k := ⟨s.role, (s.positive.map p.wordConditions ++
      s.negative.map p.wordConditions).flatten⟩) (f := fun _ => Sum.propagate
        (s.positive.map p.wordConditions) (s.negative.map p.wordConditions))
      (SumKey.answers_propagate (h.sumShape hs))
    have hderivation := hcache.1 _ _ (h.sumShape hs) rfl
    have hkept : p.Finds rules (.nothing, { p with sumCache := (p.sumCache.getOrInsert _ _).2 }) :=
      ⟨{ h with sumCache := hcache.2 }, rfl, rfl, rfl, rfl, rfl, fun _ => trivial⟩
    refine hkept.trans ?_
    dsimp only
    split
    · exact hkept.ready.finds_nothing
    · rename_i hcontradiction
      have hcontradiction := hderivation.symm.trans hcontradiction
      refine hkept.ready.finds_contradiction fun _ σ v hσ hv => Classical.byContradiction fun ha => ?_
      have hsound := h.sum_sound hs hσ hv ha
      rw [hcontradiction] at hsound
      exact hsound
    · rename_i refined relations hrefined
      have hrefined := hderivation.symm.trans hrefined
      have hequations := hkept.ready.keepSumEquations sum (h.relation_sound hs hrefined)
      refine hequations.trans ?_
      split
      · exact hequations.ready.finds_nothing
      · refine ⟨{ hequations.ready with }, rfl, rfl, rfl, rfl, rfl, fun _ => ?_⟩
        refine entailed_withReasons fun l hl σ v hσ hv => ?_
        obtain ⟨b, c, hmem, hforced⟩ := exists_of_mem_firstForced hl
        refine holds_reason hv hforced fun ha => ?_
        rw [hequations.topology] at hσ hv
        exact h.refined_sound hs hrefined hσ hv ha hmem

-- ---------------------------------------------------------------------------
-- All that is marked
-- ---------------------------------------------------------------------------

theorem Ready.finds_propagateColumns (h : p.Ready rules) (turns : Nat) :
    p.Finds rules (propagateColumns turns p) := by
  induction turns generalizing p with
  | zero => exact h.finds_nothing
  | succ turns ih =>
    have hnext := h.marks.nextColumn
    unfold propagateColumns
    split
    · rename_i marks heq
      rw [heq] at hnext
      exact ⟨{ h with marks := hnext.2 }, rfl, rfl, rfl, rfl, rfl, fun _ => trivial⟩
    · rename_i s marks heq
      rw [heq] at hnext
      have htaken : p.Finds rules (.nothing, { p with marks }) :=
        ⟨{ h with marks := hnext.2 }, rfl, rfl, rfl, rfl, rfl, fun _ => trivial⟩
      have hfound := htaken.trans (htaken.ready.finds_propagateColumn (hnext.1 s rfl))
      split
      · rename_i q hq
        rw [hq] at hfound
        exact hfound.trans (ih hfound.ready)
      · exact hfound

theorem Ready.finds_propagateSums (h : p.Ready rules) (turns : Nat) :
    p.Finds rules (propagateSums turns p) := by
  induction turns generalizing p with
  | zero => exact h.finds_nothing
  | succ turns ih =>
    have hnext := h.marks.nextSum
    unfold propagateSums
    split
    · exact h.finds_nothing
    · rename_i sum marks heq
      rw [heq] at hnext
      have htaken : p.Finds rules (.nothing, { p with marks }) :=
        ⟨{ h with marks := hnext }, rfl, rfl, rfl, rfl, rfl, fun _ => trivial⟩
      have hfound := htaken.trans (htaken.ready.finds_propagateSum sum)
      split
      · rename_i q hq
        rw [hq] at hfound
        exact hfound.trans (ih hfound.ready)
      · exact hfound

theorem Ready.finds_findPropagation (h : p.Ready rules) :
    p.Finds rules p.findPropagation := by
  have hcolumns := h.finds_propagateColumns (p.marks.marked.size + 1)
  unfold findPropagation
  split
  · rename_i q hq
    rw [hq] at hcolumns
    split
    · exact hcolumns.trans (hcolumns.ready.finds_propagateSums _)
    · refine hcolumns.trans ⟨{ hcolumns.ready with marks := ?_ }, rfl, rfl, rfl, rfl, rfl,
        fun _ => trivial⟩
      exact hcolumns.ready.marks
  · exact hcolumns

end Propagator

end ShaDiff
