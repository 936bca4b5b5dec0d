import ShaDiff.Proofs.Guarded.Bits
import ShaDiff.Proofs.Guarded.Column
import ShaDiff.Proofs.Guarded.Sum

/-!
# Guarded propagation

Propagation reads columns and sums by index, the bits that these read, and with relations the
bits and words at their places. All literals that are made have to fit. What is marked is in
range, and what is remembered of columns and sums has no relations but between places of these
(`lt_of_answers`). So a search goes through whatever is marked (`findPropagation_eq`).
-/

namespace ShaDiff.Guarded

variable {ρ : Type} {p q : Propagator ρ} {b : Bit} {o : Operation} {s : SumEquation}

-- ---------------------------------------------------------------------------
-- Literals of bits
-- ---------------------------------------------------------------------------

def trueLiterals (p : Propagator ρ) (bits : List Bit) : Except Panic Clause := do
  let literals ← bits.mapM fun b => do
    let atoms ← slots p.topology b
    ((atoms.filterMap id).filterMap fun a => (p.value? a).map (Literal.mk a)).mapM literal
  return .ofList literals.flatten

def antecedent (p : Propagator ρ) (bits : List Bit) : Except Panic Clause := do
  let literals ← trueLiterals p bits
  literals.mapM negate

def forcing (e : Encoding) (atoms : Slots) (c : Condition) : Except Panic (List Literal) :=
  if c = .never then .ok []
  else
    let regions := e.regions.filter fun r => c.subset r.condition && atoms[r.slot]?.join.isSome
    regions.mapM fun r => do literal ⟨(← read atoms r.slot).getD 0, r.polarity⟩

def forced (p : Propagator ρ) (b : Bit) (refined : Condition) : Except Panic (List Literal) := do
  let known ← condition p b
  if refined = known then return []
  else
    let literals ← forcing p.encoding (← slots p.topology b) refined
    return literals.filter fun l => (p.literal? l).isNone

def equation? (p : Propagator ρ) (slot : Nat) (b c : Bit) (value : Bool) (antecedent : Clause) :
    Except Panic (Option Equation) := do
  let _ ← slots p.topology b
  let _ ← slots p.topology c
  return p.equation? slot b c value antecedent

theorem forcing_eq {e : Encoding} {atoms : Slots} {c : Condition}
    (h : ∀ l ∈ e.forced atoms c, l.atom ≤ Topology.atomMax) :
    forcing e atoms c = .ok (e.forced atoms c) := by
  unfold forcing
  unfold Encoding.forced at h ⊢
  split
  · rfl
  · next hne =>
    rw [if_neg hne] at h
    have hmap : (e.regions.filter fun r => c.subset r.condition).filterMap (·.literal? atoms) =
        (e.regions.filter fun r => c.subset r.condition && atoms[r.slot]?.join.isSome).map
          fun r => ⟨atoms[r.slot]?.join.getD 0, r.polarity⟩ := by
      rw [← List.filterMap_eq_map, List.filterMap_filter, List.filterMap_filter]
      congr 1
      funext r
      rw [Encoding.Region.literal?, Function.comp_apply]
      cases c.subset r.condition <;> cases atoms[r.slot]?.join <;> rfl
    rw [hmap] at h ⊢
    refine mapM_eq fun r hr => ?_
    obtain ⟨a, ha⟩ := Option.isSome_iff_exists.mp
      (Bool.and_eq_true_iff.mp (List.mem_filter.mp hr).2).2
    have hliteral := literal_eq (h _ (List.mem_map_of_mem hr))
    rw [ha] at hliteral
    rw [read_eq (Option.join_eq_some_iff.mp ha), ok_bind, ha]
    exact hliteral

section

variable (ht : p.topology.Tracks) (hr : p.topology.Ranged)

include ht hr

theorem le_atomMax_of_slot {slot : Nat} {a : Atom}
    (h : (p.topology.slots b)[slot]?.join = some a) : a ≤ Topology.atomMax :=
  (hr.tracked (ht b slot a h)).le_atomMax

theorem le_atomMax_of_mem_slotAtoms {a : Atom} (h : a ∈ p.topology.slotAtoms b) :
    a ≤ Topology.atomMax := by
  obtain ⟨_, hslot⟩ := Topology.mem_slotAtoms.mp h
  exact le_atomMax_of_slot ht hr hslot

theorem le_atomMax_of_mem_forced {c : Condition} {l : Literal}
    (h : l ∈ p.encoding.forced (p.topology.slots b) c) : l.atom ≤ Topology.atomMax := by
  unfold Encoding.forced at h
  split at h
  · cases h
  · obtain ⟨r, -, hl⟩ := List.mem_filterMap.mp h
    obtain ⟨a, ha, rfl⟩ := Option.map_eq_some_iff.mp hl
    exact le_atomMax_of_slot ht hr ha

theorem antecedent_eq {bits : List Bit} (h : ∀ b ∈ bits, p.topology.HasBit b) :
    antecedent p bits = .ok (p.antecedent bits) := by
  have hliterals (b : Bit) (hb : b ∈ bits) : (do
      let atoms ← slots p.topology b
      ((atoms.filterMap id).filterMap fun a => (p.value? a).map (Literal.mk a)).mapM literal) =
      .ok ((p.topology.slotAtoms b).filterMap fun a => (p.value? a).map (Literal.mk a)) := by
    rw [slots_eq (h b hb), ok_bind]
    refine mapM_literal fun l hl => ?_
    obtain ⟨a, ha, hvalue⟩ := List.mem_filterMap.mp hl
    obtain ⟨value, -, rfl⟩ := Option.map_eq_some_iff.mp hvalue
    exact le_atomMax_of_mem_slotAtoms ht hr ha
  have htrue : trueLiterals p bits = .ok (p.trueLiterals bits) := by
    rw [trueLiterals, mapM_eq hliterals, ok_bind, pure_eq_ok, ← List.flatMap_def]
    rfl
  rw [antecedent, htrue, ok_bind]
  refine mapM_eq fun l hl => negate_eq ?_
  obtain ⟨b, -, ha, -⟩ := Propagator.mem_trueLiterals.mp hl
  exact le_atomMax_of_mem_slotAtoms ht hr ha

theorem forcing_slots (c : Condition) : forcing p.encoding (p.topology.slots b) c =
    .ok (p.encoding.forced (p.topology.slots b) c) :=
  forcing_eq fun _ => le_atomMax_of_mem_forced ht hr

theorem forced_eq (h : p.topology.HasBit b) (c : Condition) :
    forced p b c = .ok (p.forced b c) := by
  unfold forced Propagator.forced
  rw [condition_eq h, ok_bind]
  split
  · rfl
  · rw [slots_eq h, ok_bind, forcing_slots ht hr, ok_bind, pure_eq_ok]

end

theorem equation?_eq {c : Bit} (hb : p.topology.HasBit b) (hc : p.topology.HasBit c) (slot : Nat)
    (value : Bool) (antecedent : Clause) :
    equation? p slot b c value antecedent = .ok (p.equation? slot b c value antecedent) := by
  rw [equation?, slots_eq hb, ok_bind, slots_eq hc, ok_bind, pure_eq_ok]

-- ---------------------------------------------------------------------------
-- Columns
-- ---------------------------------------------------------------------------

def suppresses (o : Operation) (inputBits : List Bit) : Except Panic Bool :=
  match o.gate with
  | .add _ => do
    let digit ← less o.gate.width 1
    shift digit 64
    return Propagator.suppresses o inputBits
  | _ => .ok (Propagator.suppresses o inputBits)

def columnLiterals (p : Propagator ρ) (o : Operation) (inputBits outputBits : List Bit)
    (outcome : Column.Outcome) : Except Panic (List Literal) := do
  let inputs := inputBits.zip outcome.inputs
  let outputs := outputBits.zip outcome.outputs
  let suppressed ← suppresses o inputBits
  let outputs := if suppressed then outputs.drop 1 else outputs
  let literals ← (inputs ++ outputs).mapM fun (b, c) => forced p b c
  return literals.flatten.eraseDups

def keepColumnEquations (p : Propagator ρ) (s : Site) (bits : List Bit)
    (relations : List Relation) (antecedent : Clause) : Except Panic (Propagator ρ) :=
  match p.equationSlot? with
  | none => .ok p
  | some slot => do
    let equations ← relations.mapM fun r => do
      let b ← read bits r.first
      let c ← read bits r.second
      equation? p slot b c r.value antecedent
    within s.operation p.topology.operations.size
    within s.column p.topology.wordSize
    return { p with columnEquations := p.columnEquations.insert s (equations.filterMap id) }

def concludeColumn (p : Propagator ρ) (s : Site) (o : Operation)
    (outcome : Option Column.Outcome) : Except Panic (Finding × Propagator ρ) := do
  let inputBits := p.topology.inputBits o s.column
  let outputBits := p.topology.outputBits o s.column
  let antecedent ← antecedent p (inputBits ++ outputBits)
  match outcome with
  | none => return p.contradiction antecedent
  | some outcome =>
    let literals ← columnLiterals p o inputBits outputBits outcome
    let q ← keepColumnEquations p s (inputBits ++ outputBits) outcome.relations antecedent
    return (Propagator.withReasons literals antecedent, q)

def propagateColumn (p : Propagator ρ) (s : Site) :
    Except Panic (Finding × Propagator ρ) := do
  let o ← read p.topology.operations.toList s.operation
  (o.inputs ++ o.outputs).forM fun _ => within s.column p.topology.wordSize
  let inputs ← (p.topology.inputBits o s.column).mapM (condition p)
  let outputs ← (p.topology.outputBits o s.column).mapM (condition p)
  let (outcome, columnCache) ← remembered p.columnCache ⟨o.gate, inputs, outputs⟩ column
  concludeColumn { p with columnCache, counters.columns := p.counters.columns + 1 } s o outcome

theorem lt_of_answers {rules : Prop} {k : ColumnKey} {result : Option Column.Outcome}
    (h : k.Answers rules result) {outcome : Column.Outcome} (houtcome : result = some outcome) :
    ∀ r ∈ outcome.relations, r.first < k.inputs.length + k.outputs.length ∧
      r.second < k.inputs.length + k.outputs.length := by
  rcases h with heq | ⟨-, hnone⟩
  · rw [heq, Column.propagate] at houtcome
    dsimp only at houtcome
    split at houtcome
    · cases houtcome
    · obtain rfl := Option.some.inj houtcome
      intro r hr
      obtain ⟨hfirst, hsecond, -⟩ := Relation.sum_of_mem_all hr
      exact ⟨hfirst, hsecond⟩
  · rw [hnone outcome houtcome]
    exact List.forall_mem_nil _

theorem suppresses_eq (hpos : 1 ≤ o.gate.width) (hroom : o.gate.width ≤ 64)
    (inputBits : List Bit) :
    suppresses o inputBits = .ok (Propagator.suppresses o inputBits) := by
  unfold suppresses
  split
  · rw [less_eq hpos, ok_bind, shift_eq (by omega), ok_bind, pure_eq_ok]
  · rfl

theorem columnLiterals_eq (ht : p.topology.Tracks) (hr : p.topology.Ranged)
    {inputBits outputBits : List Bit} (hbits : ∀ b ∈ inputBits ++ outputBits, p.topology.HasBit b)
    (hpos : 1 ≤ o.gate.width) (hroom : o.gate.width ≤ 64) (outcome : Column.Outcome) :
    columnLiterals p o inputBits outputBits outcome =
      .ok (p.columnLiterals o inputBits outputBits outcome) := by
  have hforced (xs : List (Bit × Condition))
      (hxs : ∀ x ∈ xs, x.1 ∈ inputBits ++ outputBits) :
      (xs.mapM fun (b, c) => forced p b c) = .ok (xs.map fun (b, c) => p.forced b c) :=
    mapM_eq fun x hx => forced_eq ht hr (hbits x.1 (hxs x hx)) x.2
  have hinputs : ∀ x ∈ inputBits.zip outcome.inputs, x.1 ∈ inputBits ++ outputBits :=
    fun x hx => List.mem_append_left _ (List.of_mem_zip hx).1
  have houtputs : ∀ x ∈ outputBits.zip outcome.outputs, x.1 ∈ inputBits ++ outputBits :=
    fun x hx => List.mem_append_right _ (List.of_mem_zip hx).1
  unfold columnLiterals Propagator.columnLiterals
  rw [suppresses_eq hpos hroom, ok_bind]
  dsimp only
  rw [List.flatMap_def]
  split
  · rw [hforced, ok_bind, pure_eq_ok]
    exact List.forall_mem_append.mpr ⟨hinputs, fun x hx => houtputs x (List.mem_of_mem_drop hx)⟩
  · rw [hforced, ok_bind, pure_eq_ok]
    exact List.forall_mem_append.mpr ⟨hinputs, houtputs⟩

theorem keepColumnEquations_eq {u : Site} (ho : u.operation < p.topology.operations.size)
    (hu : u.column < p.topology.wordSize) {bits : List Bit}
    (hbits : ∀ b ∈ bits, p.topology.HasBit b) {relations : List Relation}
    (hrelations : ∀ r ∈ relations, r.first < bits.length ∧ r.second < bits.length)
    (antecedent : Clause) :
    keepColumnEquations p u bits relations antecedent =
      .ok (p.keepColumnEquations u bits relations antecedent) := by
  unfold keepColumnEquations Propagator.keepColumnEquations
  cases p.equationSlot? with
  | none => rfl
  | some slot =>
    have hequations := mapM_eq (f := fun r : Relation => do
        let b ← read bits r.first
        let c ← read bits r.second
        equation? p slot b c r.value antecedent)
      (g := fun r => do
        p.equation? slot (← bits[r.first]?) (← bits[r.second]?) r.value antecedent)
      fun r hmem => by
        obtain ⟨hfirst, hsecond⟩ := hrelations r hmem
        have hb := List.getElem?_eq_getElem hfirst
        have hc := List.getElem?_eq_getElem hsecond
        simp only [read_eq hb, read_eq hc, hb, hc, ok_bind, Option.bind_eq_bind, Option.bind_some]
        exact equation?_eq (hbits _ (List.getElem_mem _)) (hbits _ (List.getElem_mem _)) _ _ _
    simp only [hequations, within_eq ho, within_eq hu, ok_bind, pure_eq_ok, List.filterMap_map]
    rfl

theorem concludeColumn_eq (ht : p.topology.Tracks) (hr : p.topology.Ranged) {u : Site}
    (hu : u.column < p.topology.wordSize) (hsize : u.operation < p.topology.operations.size)
    (hbits : ∀ b ∈ p.topology.inputBits o u.column ++ p.topology.outputBits o u.column,
      p.topology.HasBit b)
    (hpos : 1 ≤ o.gate.width) (hroom : o.gate.width ≤ 64) {outcome : Option Column.Outcome}
    (houtcome : (p.columnKey o u.column).Answers True outcome) :
    concludeColumn p u o outcome = .ok (p.concludeColumn u o outcome) := by
  unfold concludeColumn Propagator.concludeColumn
  simp only [antecedent_eq ht hr hbits, ok_bind]
  cases outcome with
  | none => rfl
  | some outcome =>
    have hrelations := lt_of_answers houtcome rfl
    simp only [Propagator.columnKey, List.length_map, ← List.length_append] at hrelations
    simp only [columnLiterals_eq ht hr hbits hpos hroom,
      keepColumnEquations_eq hsize hu hbits hrelations, ok_bind, pure_eq_ok]

/-- A marked column is propagated. -/
theorem propagateColumn_eq (h : p.Ready True) (ht : p.topology.Tracks) (hr : p.topology.Ranged)
    {u : Site} (hsize : u.operation < p.topology.operations.size)
    (hu : u.column < p.topology.wordSize) : propagateColumn p u = .ok (p.propagateColumn u) := by
  obtain ⟨order, hbuilt⟩ := h.built
  have ho := Array.getElem?_eq_getElem hsize
  have hmem := Array.getElem_mem hsize
  generalize p.topology.operations[u.operation] = o at ho hmem
  obtain ⟨hpos, hnarrow⟩ := hbuilt.narrow hmem
  have hmax : Column.positionsMax = 16 := rfl
  have hbits := hbuilt.hasBit_of_operation hr hmem hu
  have hread : read p.topology.operations.toList u.operation = .ok o := read_eq (by simpa using ho)
  have hviews : (o.inputs ++ o.outputs).forM (fun _ => within u.column p.topology.wordSize) =
      .ok () := forM_eq fun _ _ => within_eq hu
  have hinputs : (p.topology.inputBits o u.column).mapM (condition p) =
      .ok ((p.topology.inputBits o u.column).map p.condition) :=
    mapM_eq fun b hb => condition_eq (hbits b (List.mem_append_left _ hb))
  have houtputs : (p.topology.outputBits o u.column).mapM (condition p) =
      .ok ((p.topology.outputBits o u.column).map p.condition) :=
    mapM_eq fun b hb => condition_eq (hbits b (List.mem_append_right _ hb))
  have hcolumn : column (p.columnKey o u.column) = .ok (p.columnKey o u.column).propagate :=
    column_eq {
      inputs := by simp [Propagator.columnKey, Topology.inputBits, (hbuilt.fed hmem).arity]
      outputs := by simp [Propagator.columnKey, Topology.outputBits, hbuilt.outputs hmem]
      pos := hpos
      narrow := hnarrow }
  have hanswers := (h.columnCache.getOrInsert (k := p.columnKey o u.column)
    (f := ColumnKey.propagate) (.inl rfl)).1
  rw [Propagator.propagateColumn_eq p ho, propagateColumn, hread, ok_bind, hviews, ok_bind,
    hinputs, ok_bind, houtputs, ok_bind]
  rw [show (⟨o.gate, _, _⟩ : ColumnKey) = p.columnKey o u.column from rfl,
    remembered_eq hcolumn, ok_bind]
  generalize p.columnCache.getOrInsert (p.columnKey o u.column) ColumnKey.propagate = found
    at hanswers ⊢
  exact concludeColumn_eq (p := { p with
    columnCache := found.2
    counters.columns := p.counters.columns + 1 }) ht hr hu hsize hbits hpos (by omega) hanswers

-- ---------------------------------------------------------------------------
-- Sums
-- ---------------------------------------------------------------------------

def keepSumEquations (p : Propagator ρ) (i : Nat) (words : List Nat)
    (relations : List Sum.WordRelation) (antecedent : Clause) : Except Panic (Propagator ρ) :=
  match p.equationSlot? with
  | none => .ok p
  | some slot => do
    let equations ← relations.mapM fun r => do
      let v ← read words r.first
      let w ← read words r.second
      equation? p slot ⟨v, r.column⟩ ⟨w, r.column⟩ r.value antecedent
    within i p.topology.sums.size
    return { p with sumEquations := p.sumEquations.insert i (equations.filterMap id) }

def refinedBits (words : List Nat) (refined : List (List Condition)) :
    Except Panic (List (Bit × Condition)) := do
  let bits ← (words.zip refined).mapM fun (word, conditions) =>
    (List.range conditions.length).reverse.mapM fun column => do
      return (⟨word, column⟩, ← read conditions column)
  return bits.flatten

def firstForced (p : Propagator ρ) : List (Bit × Condition) → Except Panic (List Literal)
  | [] => .ok []
  | (b, c) :: rest => do
    match ← forced p b c with
    | [] => firstForced p rest
    | literals => return literals

def sumAntecedent (p : Propagator ρ) (s : SumEquation) : Except Panic Clause := do
  let bits ← s.words.mapM (wordBits p.topology)
  antecedent p bits.flatten

def concludeSum (p : Propagator ρ) (i : Nat) (s : SumEquation) (derivation : Sum.Derivation) :
    Except Panic (Finding × Propagator ρ) :=
  match derivation with
  | .skipped => .ok (.nothing, p)
  | .contradiction => do
    let antecedent ← sumAntecedent p s
    return p.contradiction antecedent
  | .refined refined relations => do
    let antecedent ← sumAntecedent p s
    let q ← keepSumEquations p i s.words relations antecedent
    match ← firstForced p (← refinedBits s.words refined) with
    | [] => return (.nothing, q)
    | literals => return (Propagator.withReasons literals antecedent, { q with
        counters.derivations := q.counters.derivations + 1 })

def propagateSum (p : Propagator ρ) (i : Nat) : Except Panic (Finding × Propagator ρ) := do
  let s ← read p.topology.sums.toList i
  let positive ← s.positive.mapM (wordConditions p)
  let negative ← s.negative.mapM (wordConditions p)
  let (derivation, sumCache) ←
    remembered p.sumCache ⟨s.role, (positive ++ negative).flatten⟩ fun _ => sum positive negative
  concludeSum { p with sumCache } i s derivation

theorem keepSumEquations_eq {i : Nat} (hi : i < p.topology.sums.size) {words : List Nat}
    (hwords : ∀ w ∈ words, w < p.topology.words.size) {relations : List Sum.WordRelation}
    (hrelations : ∀ r ∈ relations, r.first < words.length ∧ r.second < words.length ∧
      r.column < p.topology.wordSize) (antecedent : Clause) :
    keepSumEquations p i words relations antecedent =
      .ok (p.keepSumEquations i words relations antecedent) := by
  unfold keepSumEquations Propagator.keepSumEquations
  cases p.equationSlot? with
  | none => rfl
  | some slot =>
    have hequations := mapM_eq (f := fun r : Sum.WordRelation => do
        let v ← read words r.first
        let w ← read words r.second
        equation? p slot ⟨v, r.column⟩ ⟨w, r.column⟩ r.value antecedent)
      (g := fun r => do
        p.equation? slot ⟨← words[r.first]?, r.column⟩ ⟨← words[r.second]?, r.column⟩ r.value
          antecedent)
      fun r hmem => by
        obtain ⟨hfirst, hsecond, hcolumn⟩ := hrelations r hmem
        have hv := List.getElem?_eq_getElem hfirst
        have hw := List.getElem?_eq_getElem hsecond
        simp only [read_eq hv, read_eq hw, hv, hw, ok_bind, Option.bind_eq_bind, Option.bind_some]
        exact equation?_eq ⟨hwords _ (List.getElem_mem _), hcolumn⟩
          ⟨hwords _ (List.getElem_mem _), hcolumn⟩ _ _ _
    simp only [hequations, within_eq hi, ok_bind, pure_eq_ok, List.filterMap_map]
    rfl

theorem refinedBits_eq (words : List Nat) (refined : List (List Condition)) :
    refinedBits words refined = .ok (Propagator.refinedBits words refined) := by
  have hword (word : Nat) (conditions : List Condition) :
      ((List.range conditions.length).reverse.mapM fun column => do
        return ((⟨word, column⟩ : Bit), ← read conditions column)) =
      .ok (conditions.zipIdx.map fun x => ((⟨word, x.2⟩ : Bit), x.1)).reverse := by
    have hread := mapM_eq
      (f := fun column => do return ((⟨word, column⟩ : Bit), ← read conditions column))
      (g := fun column => ((⟨word, column⟩ : Bit), conditions.getD column .any))
      fun column (hcolumn : column ∈ (List.range conditions.length).reverse) => by
        have hlt := List.mem_range.mp (List.mem_reverse.mp hcolumn)
        rw [read_getD hlt .any, ok_bind, pure_eq_ok]
    rw [hread, List.map_reverse]
    congr 2
    exact List.ext_getElem (by simp) fun column hcolumn _ => by
      have hlt : column < conditions.length := by simpa using hcolumn
      simp [hlt]
  rw [refinedBits, mapM_eq fun x _ => hword x.1 x.2, ok_bind, pure_eq_ok, ← List.flatMap_def]
  rfl

theorem firstForced_eq (ht : p.topology.Tracks) (hr : p.topology.Ranged)
    {refined : List (Bit × Condition)} (h : ∀ x ∈ refined, p.topology.HasBit x.1) :
    firstForced p refined = .ok (p.firstForced refined) := by
  induction refined with
  | nil => rfl
  | cons x refined ih =>
    obtain ⟨hx, hrefined⟩ := List.forall_mem_cons.mp h
    simp only [firstForced, Propagator.firstForced, forced_eq ht hr hx, ok_bind]
    cases p.forced x.1 x.2 with
    | nil => exact ih hrefined
    | cons l ls => rfl

section

variable (ht : p.topology.Tracks) (hr : p.topology.Ranged)
  (hwords : ∀ w ∈ s.words, w < p.topology.words.size)

include hwords

theorem hasBit_of_words : ∀ b ∈ s.words.flatMap p.topology.wordBits, p.topology.HasBit b := by
  intro b hb
  obtain ⟨w, hw, hb⟩ := List.mem_flatMap.mp hb
  obtain ⟨column, hcolumn, rfl⟩ := List.mem_map.mp hb
  exact ⟨hwords w hw, List.mem_range.mp hcolumn⟩

include ht hr

theorem sumAntecedent_eq :
    sumAntecedent p s = .ok (p.antecedent (s.words.flatMap p.topology.wordBits)) := by
  rw [sumAntecedent, mapM_eq fun w hw => wordBits_eq (hwords w hw), ok_bind, ← List.flatMap_def]
  exact antecedent_eq ht hr (hasBit_of_words hwords)

theorem concludeSum_eq {i : Nat} (hi : i < p.topology.sums.size) :
    concludeSum p i s (p.sumDerivation s) = .ok (p.concludeSum i s (p.sumDerivation s)) := by
  have hsize : ∀ word ∈ s.positive.map p.wordConditions ++ s.negative.map p.wordConditions,
      word.length = p.topology.wordSize := by
    intro word hword
    rw [← List.map_append] at hword
    obtain ⟨w, -, rfl⟩ := List.mem_map.mp hword
    simp [Propagator.wordConditions, Topology.wordBits]
  have hlength : (s.positive.map p.wordConditions ++ s.negative.map p.wordConditions).length =
      s.words.length := by simp [SumEquation.words]
  unfold concludeSum Propagator.concludeSum
  cases hderivation : p.sumDerivation s with
  | skipped => rfl
  | contradiction => simp only [sumAntecedent_eq ht hr hwords, ok_bind, pure_eq_ok]
  | refined refined relations =>
    have hrelations := lt_of_mem_relations hsize hderivation
    rw [hlength] at hrelations
    have hrefined : ∀ x ∈ Propagator.refinedBits s.words refined, p.topology.HasBit x.1 :=
      fun x hx => hasBit_of_words hwords _ (Propagator.signwise_of_mem_refinedBits hderivation hx).1
    simp only [sumAntecedent_eq ht hr hwords, keepSumEquations_eq hi hwords hrelations,
      refinedBits_eq, firstForced_eq ht hr hrefined, ok_bind, pure_eq_ok]
    cases p.firstForced (Propagator.refinedBits s.words refined) <;> rfl

end

/-- A marked sum is propagated. -/
theorem propagateSum_eq (h : p.Ready True) (ht : p.topology.Tracks) (hr : p.topology.Ranged)
    {i : Nat} (hi : i < p.topology.sums.size) : propagateSum p i = .ok (p.propagateSum i) := by
  obtain ⟨order, hbuilt⟩ := h.built
  have hs := Array.getElem?_eq_getElem hi
  have hmem := Array.getElem_mem hi
  generalize p.topology.sums[i] = s at hs hmem
  have hwords := hbuilt.word_lt_of_sum hr hmem
  have hshape := h.sumShape hmem
  have hread : read p.topology.sums.toList i = .ok s := read_eq (by simpa using hs)
  have hpositive : s.positive.mapM (wordConditions p) = .ok (s.positive.map p.wordConditions) :=
    mapM_eq fun w hw => wordConditions_eq (hwords w (List.mem_append_left _ hw))
  have hnegative : s.negative.mapM (wordConditions p) = .ok (s.negative.map p.wordConditions) :=
    mapM_eq fun w hw => wordConditions_eq (hwords w (List.mem_append_right _ hw))
  have hwide : p.topology.wordSize ≤ 64 := Nat.le_trans h.wordSize_le (by decide)
  have hsum : sum (s.positive.map p.wordConditions) (s.negative.map p.wordConditions) =
      .ok (p.sumDerivation s) := sum_eq hshape.length_word hwide
  have hanswers := (h.sumCache.getOrInsert (k := p.sumKey s) (f := fun _ => p.sumDerivation s)
    (SumKey.answers_propagate hshape)).1 _ _ hshape rfl
  rw [Propagator.propagateSum_eq p hs, propagateSum, hread, ok_bind, hpositive, ok_bind,
    hnegative, ok_bind]
  rw [show (⟨s.role, _⟩ : SumKey) = p.sumKey s from rfl,
    remembered_eq (k := p.sumKey s) (g := fun _ => p.sumDerivation s) hsum, ok_bind]
  generalize p.sumCache.getOrInsert (p.sumKey s) (fun _ => p.sumDerivation s) = found
    at hanswers ⊢
  obtain ⟨derivation, sumCache⟩ := found
  obtain rfl : derivation = p.sumDerivation s := hanswers
  exact concludeSum_eq (p := { p with sumCache }) ht hr hwords hi

-- ---------------------------------------------------------------------------
-- All that is marked
-- ---------------------------------------------------------------------------

def propagateColumns : (turns : Nat) → Propagator ρ → Except Panic (Finding × Propagator ρ)
  | 0, p => .ok (.nothing, p)
  | turns + 1, p =>
    match p.marks.nextColumn with
    | (none, marks) => .ok (.nothing, { p with marks })
    | (some u, marks) => do
      match ← propagateColumn { p with marks } u with
      | (.nothing, p) => propagateColumns turns p
      | found => return found

def propagateSums : (turns : Nat) → Propagator ρ → Except Panic (Finding × Propagator ρ)
  | 0, p => .ok (.nothing, p)
  | turns + 1, p =>
    match p.marks.nextSum with
    | (none, _) => .ok (.nothing, p)
    | (some i, marks) => do
      match ← propagateSum { p with marks } i with
      | (.nothing, p) => propagateSums turns p
      | found => return found

def findPropagation (p : Propagator ρ) : Except Panic (Finding × Propagator ρ) := do
  match ← propagateColumns (p.marks.marked.size + 1) p with
  | (.nothing, p) =>
    if p.config.wordwise then propagateSums p.marks.sums.length p
    else return (.nothing, { p with marks := p.marks.clearSums })
  | found => return found

/-- Whether a search may go on: all is ready for it, and in range. -/
structure Searchable (p : Propagator ρ) : Prop where
  ready : p.Ready True
  tracks : p.topology.Tracks
  range : p.InRange

theorem Searchable.of_finds (h : Searchable p) {found : Finding × Propagator ρ}
    (hfinds : p.Finds True found) (hkept : p.Kept found.2)
    (hmarks : found.2.marks.Within p.topology.operations.size p.topology.sums.size) :
    Searchable found.2 where
  ready := hfinds.ready
  tracks := hkept.topology ▸ h.tracks
  range := h.range.of_kept hkept hmarks

theorem propagateColumns_eq (h : Searchable p) (turns : Nat) :
    propagateColumns turns p = .ok (Propagator.propagateColumns turns p) := by
  induction turns generalizing p with
  | zero => rfl
  | succ turns ih =>
    have hbelow := h.ready.marks.nextColumn
    have hwithin := h.range.marks.nextColumn
    unfold propagateColumns Propagator.propagateColumns
    generalize p.marks.nextColumn = next at hbelow hwithin ⊢
    obtain ⟨found, marks⟩ := next
    cases found with
    | none => rfl
    | some u =>
      have htaken : ({ p with marks } : Propagator ρ).Ready True :=
        { h.ready with marks := hbelow.2 }
      have hlater : Searchable ({ p with marks }.propagateColumn u).2 :=
        Searchable.of_finds ⟨htaken, h.tracks, { h.range with marks := hwithin.2 }⟩
          (htaken.finds_propagateColumn (hbelow.1 u rfl)) (Propagator.kept_propagateColumn _ u)
          (by rw [Propagator.marks_propagateColumn]; exact hwithin.2)
      simp only [propagateColumn_eq htaken h.tracks h.range.ranged (hwithin.1 u rfl)
        (hbelow.1 u rfl), ok_bind]
      generalize { p with marks }.propagateColumn u = found at hlater ⊢
      obtain ⟨finding, q⟩ := found
      cases finding with
      | nothing => exact ih hlater
      | literals _ | conflict _ => rfl

theorem propagateSums_eq (h : Searchable p) (turns : Nat) :
    propagateSums turns p = .ok (Propagator.propagateSums turns p) := by
  induction turns generalizing p with
  | zero => rfl
  | succ turns ih =>
    have hbelow := h.ready.marks.nextSum
    have hwithin := h.range.marks.nextSum
    unfold propagateSums Propagator.propagateSums
    generalize p.marks.nextSum = next at hbelow hwithin ⊢
    obtain ⟨found, marks⟩ := next
    cases found with
    | none => rfl
    | some i =>
      have htaken : ({ p with marks } : Propagator ρ).Ready True :=
        { h.ready with marks := hbelow }
      have hlater : Searchable ({ p with marks }.propagateSum i).2 :=
        Searchable.of_finds ⟨htaken, h.tracks, { h.range with marks := hwithin.2 }⟩
          (htaken.finds_propagateSum i) (Propagator.kept_propagateSum _ i)
          (by rw [Propagator.marks_propagateSum]; exact hwithin.2)
      simp only [propagateSum_eq htaken h.tracks h.range.ranged (hwithin.1 i rfl), ok_bind]
      generalize { p with marks }.propagateSum i = found at hlater ⊢
      obtain ⟨finding, q⟩ := found
      cases finding with
      | nothing => exact ih hlater
      | literals _ | conflict _ => rfl

theorem findPropagation_eq (h : Searchable p) : findPropagation p = .ok p.findPropagation := by
  have hcolumns : Searchable (Propagator.propagateColumns (p.marks.marked.size + 1) p).2 :=
    h.of_finds (h.ready.finds_propagateColumns _) (Propagator.kept_propagateColumns _ p)
      (Propagator.within_propagateColumns h.range.marks _)
  unfold findPropagation Propagator.findPropagation
  rw [propagateColumns_eq h, ok_bind]
  generalize Propagator.propagateColumns (p.marks.marked.size + 1) p = found at hcolumns ⊢
  obtain ⟨finding, q⟩ := found
  cases finding with
  | nothing =>
    show (if q.config.wordwise then _ else _) = Except.ok (if q.config.wordwise then _ else _)
    rw [propagateSums_eq hcolumns, apply_ite Except.ok]
    rfl
  | literals _ | conflict _ => rfl

end ShaDiff.Guarded
