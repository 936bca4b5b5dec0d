import ShaDiff.Proofs.Column.Exact
import ShaDiff.Proofs.Propagator.Attentive
import ShaDiff.Proofs.Topology.Apart

/-!
# Literals that are propagated together

No two literals that a column forces have one atom, since a bit that is met twice is refined
alike. A literal forced under weaker conditions holds at each fixpoint below them.
-/

namespace ShaDiff.Propagator

variable {ρ : Type} {p q : Propagator ρ} {o : Operation} {j i : Nat} {b b' : Bit}
  {c d : Condition} {l k : Literal} {ls : List Literal} {r r' : Encoding.Region}
  {outcome : Column.Outcome}

-- ---------------------------------------------------------------------------
-- Literals and regions
-- ---------------------------------------------------------------------------

theorem eq_of_atom (ht : p.topology.Tracks) (hl : r.literal? (p.topology.slots b) = some l)
    (hk : r'.literal? (p.topology.slots b') = some k) (hatom : l.atom = k.atom) :
    b = b' ∧ r.slot = r'.slot := by
  obtain ⟨a, ha, rfl⟩ := Option.map_eq_some_iff.mp hl
  obtain ⟨a', ha', rfl⟩ := Option.map_eq_some_iff.mp hk
  obtain rfl : a = a' := hatom
  have hplace := (ht _ _ _ ha).symm.trans (ht _ _ _ ha')
  rw [Option.some_inj, Place.mk.injEq] at hplace
  exact hplace

theorem polarity_of_literal? (hl : r.literal? (p.topology.slots b) = some l) :
    r.polarity = l.polarity := by
  obtain ⟨a, -, rfl⟩ := Option.map_eq_some_iff.mp hl
  rfl

theorem exists_of_mem_forced (hl : l ∈ p.forced b c) : c ≠ .never ∧
    ∃ r ∈ p.encoding.regions, r.literal? (p.topology.slots b) = some l ∧
      c.subset r.condition = true := by
  have hl := mem_forced hl
  unfold Encoding.forced at hl
  split at hl
  · cases hl
  · next hne =>
    obtain ⟨r, hr, hl⟩ := List.mem_filterMap.mp hl
    obtain ⟨hr, hsubset⟩ := List.mem_filter.mp hr
    exact ⟨hne, r, hr, hl, hsubset⟩

theorem eq_of_mem_forced (ht : p.topology.Tracks) (hl : l ∈ p.forced b c) (hk : k ∈ p.forced b c)
    (hatom : l.atom = k.atom) : l = k := by
  obtain ⟨hne, r, hr, hl, hsubset⟩ := exists_of_mem_forced hl
  obtain ⟨-, r', hr', hk, hsubset'⟩ := exists_of_mem_forced hk
  obtain ⟨x, hx⟩ := Condition.allows_of_ne_never hne
  have hslot := (eq_of_atom ht hl hk hatom).2
  have hx' := Condition.subset_iff.mp hsubset' x hx
  have hx := Condition.subset_iff.mp hsubset x hx
  rw [Encoding.allows_region hr, polarity_of_literal? hl, beq_iff_eq] at hx
  rw [Encoding.allows_region hr', polarity_of_literal? hk, beq_iff_eq, ← hslot] at hx'
  rcases l with ⟨a, v⟩
  rcases k with ⟨a', v'⟩
  rw [Literal.mk.injEq]
  exact ⟨hatom, hx.symm.trans hx'⟩

-- ---------------------------------------------------------------------------
-- Literals of a column
-- ---------------------------------------------------------------------------

/-- A column forces what the refined condition of a position forces, a highest carry apart
that is left alone. -/
theorem mem_columnLiterals_iff {inputBits outputBits : List Bit}
    (hlength : outcome.inputs.length = inputBits.length) :
    l ∈ p.columnLiterals o inputBits outputBits outcome ↔
      ∃ (i : Nat) (b : Bit) (c : Condition), (inputBits ++ outputBits)[i]? = some b ∧
        (outcome.inputs ++ outcome.outputs)[i]? = some c ∧
        ¬ (suppresses o inputBits = true ∧ i = inputBits.length) ∧ l ∈ p.forced b c := by
  rw [mem_columnLiterals]
  constructor
  · rintro (⟨b, c, hzip, hl⟩ | ⟨b, c, hzip, hl⟩)
    · obtain ⟨i, hi⟩ := List.getElem?_of_mem hzip
      obtain ⟨hb, hc⟩ := List.getElem?_zip_eq_some.mp hi
      have hlt := (List.getElem?_eq_some_iff.mp hb).1
      refine ⟨i, b, c, ?_, ?_, fun h => by omega, hl⟩
      · rw [List.getElem?_append_left hlt, hb]
      · rw [List.getElem?_append_left (by omega), hc]
    · obtain ⟨i, hi⟩ := List.getElem?_of_mem hzip
      rw [List.getElem?_drop] at hi
      obtain ⟨hb, hc⟩ := List.getElem?_zip_eq_some.mp hi
      refine ⟨inputBits.length + ((suppresses o inputBits).toNat + i), b, c, ?_, ?_, ?_, hl⟩
      · rw [List.getElem?_append_right (Nat.le_add_right _ _), Nat.add_sub_cancel_left, hb]
      · rw [List.getElem?_append_right (by omega), hlength, Nat.add_sub_cancel_left, hc]
      · rintro ⟨hs, hi⟩
        rw [hs, Bool.toNat_true] at hi
        omega
  · rintro ⟨i, b, c, hb, hc, hkept, hl⟩
    rcases Nat.lt_or_ge i inputBits.length with hlt | hge
    · rw [List.getElem?_append_left hlt] at hb
      rw [List.getElem?_append_left (by omega)] at hc
      exact .inl ⟨b, c, List.mem_of_getElem? (List.getElem?_zip_eq_some.mpr ⟨hb, hc⟩), hl⟩
    · rw [List.getElem?_append_right hge] at hb
      rw [List.getElem?_append_right (by omega), hlength] at hc
      refine .inr ⟨b, c, List.mem_of_getElem? (i := i - inputBits.length -
        (suppresses o inputBits).toNat) ?_, hl⟩
      have hle : (suppresses o inputBits).toNat ≤ i - inputBits.length := by
        cases hs : suppresses o inputBits with
        | false => exact Nat.zero_le _
        | true =>
          have : i ≠ inputBits.length := fun heq => hkept ⟨hs, heq⟩
          rw [Bool.toNat_true]
          omega
      rw [List.getElem?_drop, Nat.add_sub_cancel' hle]
      exact List.getElem?_zip_eq_some.mpr ⟨hb, hc⟩

def outcome? (p : Propagator ρ) (o : Operation) (column : Nat) : Option Column.Outcome :=
  Column.propagate o.gate ((p.topology.inputBits o column).map p.condition)
    ((p.topology.outputBits o column).map p.condition)

theorem length_inputs (h : p.outcome? o j = some outcome) :
    outcome.inputs.length = (p.topology.inputBits o j).length :=
  (Column.exact_propagate h).length_inputs.trans (List.length_map _)

theorem eq_of_bit (hdistinct : p.topology.Distinct) (ho : o ∈ p.topology.operations)
    (h : p.outcome? o j = some outcome) {i i' : Nat} (hz : b.isZero = false)
    (hb : (p.topology.inputBits o j ++ p.topology.outputBits o j)[i]? = some b)
    (hb' : (p.topology.inputBits o j ++ p.topology.outputBits o j)[i']? = some b)
    (hc : (outcome.inputs ++ outcome.outputs)[i]? = some c)
    (hd : (outcome.inputs ++ outcome.outputs)[i']? = some d) : c = d := by
  rcases (hdistinct.apart o ho).index hb hb' hz with rfl | ⟨hxor, hi, hi'⟩
  · exact Option.some.inj (hc.symm.trans hd)
  · have hlength : (p.topology.inputBits o j).length = o.inputs.length := List.length_map _
    have harity := hdistinct.arity o ho hxor
    have hrefined := length_inputs h
    rw [List.getElem?_append_left (hlength ▸ hi)] at hb
    rw [List.getElem?_append_left (hlength ▸ hi')] at hb'
    rw [List.getElem?_append_left (by omega)] at hc hd
    unfold outcome? at h
    rw [hxor] at h
    refine (Column.exact_propagate h).eq_of_xor3 ?_ ?_ hc hd
    · rw [List.length_map, hlength, harity]
    · rw [List.getElem?_map, List.getElem?_map, hb, hb']

theorem eq_of_mem_columnLiterals (hdistinct : p.topology.Distinct)
    (ht : p.topology.Tracks) (ho : o ∈ p.topology.operations) (h : p.outcome? o j = some outcome)
    (hl : l ∈ p.columnLiterals o (p.topology.inputBits o j) (p.topology.outputBits o j) outcome)
    (hk : k ∈ p.columnLiterals o (p.topology.inputBits o j) (p.topology.outputBits o j) outcome)
    (hatom : l.atom = k.atom) : l = k := by
  obtain ⟨i, b, c, hb, hc, -, hl⟩ := (mem_columnLiterals_iff (length_inputs h)).mp hl
  obtain ⟨i', b', d, hb', hd, -, hk⟩ := (mem_columnLiterals_iff (length_inputs h)).mp hk
  obtain ⟨-, r, -, hr, -⟩ := exists_of_mem_forced hl
  obtain ⟨-, r', -, hr', -⟩ := exists_of_mem_forced hk
  obtain ⟨rfl, -⟩ := eq_of_atom ht hr hr' hatom
  obtain rfl := eq_of_bit hdistinct ho h (isZero_of_literal? hr) hb hb' hc hd
  exact eq_of_mem_forced ht hl hk hatom

theorem nodup_eraseDups {α : Type} [BEq α] [LawfulBEq α] (xs : List α) : xs.eraseDups.Nodup := by
  induction h : xs.length using Nat.strongRecOn generalizing xs with
  | ind n ih =>
    cases xs with
    | nil => exact List.nodup_nil
    | cons x xs =>
      rw [List.eraseDups_cons, List.nodup_cons]
      refine ⟨fun hmem => ?_, ih _ ?_ _ rfl⟩
      · simpa using (List.mem_filter.mp (List.mem_eraseDups.mp hmem)).2
      · rw [← h, List.length_cons]
        exact Nat.lt_succ_of_le (List.length_filter_le _ _)

theorem pairwise_columnLiterals (hdistinct : p.topology.Distinct)
    (ht : p.topology.Tracks) (ho : o ∈ p.topology.operations) (h : p.outcome? o j = some outcome) :
    (p.columnLiterals o (p.topology.inputBits o j) (p.topology.outputBits o j) outcome).Pairwise
      (·.atom ≠ ·.atom) := by
  have hnodup : (p.columnLiterals o (p.topology.inputBits o j) (p.topology.outputBits o j)
      outcome).Nodup := nodup_eraseDups _
  exact hnodup.imp_of_mem fun hl hk hne hatom =>
    hne (eq_of_mem_columnLiterals hdistinct ht ho h hl hk hatom)

-- ---------------------------------------------------------------------------
-- Below a fixpoint
-- ---------------------------------------------------------------------------

def Implies (p : Propagator ρ) (l : Literal) : Prop :=
  ∀ b, ∀ r ∈ p.encoding.regions, r.literal? (p.topology.slots b) = some l →
    (p.condition b).subset r.condition = true

theorem implies_of_subset (ht : p.topology.Tracks) (hr : r ∈ p.encoding.regions)
    (hl : r.literal? (p.topology.slots b) = some l)
    (h : (p.condition b).subset r.condition = true) : p.Implies l := by
  intro b' r' hr' hl'
  obtain ⟨rfl, hslot⟩ := eq_of_atom ht hl hl' rfl
  refine Condition.subset_iff.mpr fun x hx => ?_
  have hx := Condition.subset_iff.mp h x hx
  rwa [Encoding.allows_region hr', ← hslot, polarity_of_literal? hl', ← polarity_of_literal? hl,
    ← Encoding.allows_region hr]

theorem implies_of_true (hreflects : p.topology.Reflects p.valuation p.characteristic)
    (htrue : p.literal? l = some true) : p.Implies l := by
  intro b r hr hl
  have hfresh := hreflects b (isZero_of_literal? hl)
  rw [condition, hfresh]
  exact Condition.subset_iff.mpr fun x hx => allows_of_fresh hr hl htrue hx

/-- A condition that is not forced any further holds all that a weaker one forces. -/
theorem implies_of_forced (ht : q.topology.Tracks)
    (hreflects : q.topology.Reflects q.valuation q.characteristic)
    (htopology : p.topology = q.topology) (hl : l ∈ p.forced b c) (hdc : d.subset c = true)
    (hne : d ≠ .never) (hdq : d.subset (q.condition b) = true) (hnot : l ∉ q.forced b d) :
    q.Implies l := by
  obtain ⟨-, r, hr, hl, hsubset⟩ := exists_of_mem_forced hl
  rw [encoding, htopology] at hr
  rw [htopology] at hl
  have hinside : d.subset r.condition = true := Condition.subset_iff.mpr fun x hx =>
    Condition.subset_iff.mp hsubset x (Condition.subset_iff.mp hdc x hx)
  by_cases hsame : d = q.condition b
  · exact implies_of_subset ht hr hl (hsame ▸ hinside)
  · -- The literal is forced at the fixpoint too, so it has a value there.
    have hvalued : q.literal? l ≠ none := by
      intro hnone
      refine hnot ?_
      unfold Propagator.forced
      rw [if_neg hsame, List.mem_filter, hnone]
      refine ⟨?_, rfl⟩
      unfold Encoding.forced
      rw [if_neg hne]
      exact List.mem_filterMap.mpr ⟨r, List.mem_filter.mpr ⟨hr, hinside⟩, hl⟩
    obtain ⟨v, hv⟩ := Option.ne_none_iff_exists'.mp hvalued
    obtain ⟨x, hx⟩ := Condition.allows_of_ne_never hne
    have hfresh : (q.freshCondition b).allows x = true := by
      have hx := Condition.subset_iff.mp hdq x hx
      rwa [condition, hreflects b (isZero_of_literal? hl)] at hx
    have hregion := Condition.subset_iff.mp hinside x hx
    obtain rfl : true = v := hregion.symm.trans (allows_of_fresh hr hl hv hfresh)
    exact implies_of_true hreflects hv

/-- A column that forces some literals at most is not contradictory under weaker conditions,
and what it forces there is one of those literals or holds already. -/
theorem ColumnForces.implies (h : q.ColumnForces o j ls) (ht : q.topology.Tracks)
    (hreflects : q.topology.Reflects q.valuation q.characteristic)
    (htopology : p.topology = q.topology)
    (hweaker : ∀ b ∈ q.topology.inputBits o j ++ q.topology.outputBits o j,
      (q.condition b).subset (p.condition b) = true) :
    ∃ outcome, p.outcome? o j = some outcome ∧ ∀ l ∈ p.columnLiterals o
      (p.topology.inputBits o j) (p.topology.outputBits o j) outcome, l ∈ ls ∨ q.Implies l := by
  obtain ⟨strong, hstrong, hall⟩ := h
  have hwithin (bits : List Bit) (hbits : ∀ b ∈ bits,
      (q.condition b).subset (p.condition b) = true) :
      Column.Within (bits.map q.condition) (bits.map p.condition) := by
    rw [Column.Within, List.forall₂_map_left_iff, List.forall₂_map_right_iff]
    exact List.forall₂_same.mpr hbits
  have hexact := Column.exact_propagate hstrong
  obtain ⟨weak, hweak, hin, hout⟩ := Column.propagate_mono
    (hwithin _ fun b hb => hweaker b (List.mem_append_left _ hb))
    (hwithin _ fun b hb => hweaker b (List.mem_append_right _ hb)) hstrong
  rw [← htopology] at hweak
  refine ⟨weak, hweak, fun l hl => Classical.or_iff_not_imp_left.mpr fun hnot => ?_⟩
  obtain ⟨i, b, c, hb, hc, hkept, hl⟩ := (mem_columnLiterals_iff (length_inputs hweak)).mp hl
  rw [htopology] at hb hkept
  obtain ⟨d, hd, hdc⟩ := Column.Within.getElem? (List.rel_append hin hout) hc
  refine implies_of_forced ht hreflects htopology hl hdc
    (hexact.ne_never (List.mem_of_getElem? hd)) ?_ fun hforced => hnot (hall l ?_)
  · have hcondition : (((q.topology.inputBits o j).map q.condition ++
        (q.topology.outputBits o j).map q.condition))[i]? = some (q.condition b) := by
      rw [← List.map_append, List.getElem?_map, hb, Option.map_some]
    obtain ⟨d', hd', hsubset⟩ := Column.Within.getElem?
      (List.rel_append hexact.within.1 hexact.within.2) hcondition
    obtain rfl := Option.some.inj (hd.symm.trans hd')
    exact hsubset
  · exact (mem_columnLiterals_iff (length_inputs hstrong)).mpr ⟨i, b, d, hb, hd, hkept, hforced⟩

-- ---------------------------------------------------------------------------
-- Searches
-- ---------------------------------------------------------------------------

def FromColumn (p : Propagator ρ) : Finding → Prop
  | .nothing => True
  | .literals ls => ∃ o ∈ p.topology.operations, ∃ j < p.topology.wordSize, ∃ outcome,
    p.outcome? o j = some outcome ∧ ls.map Prod.fst = p.columnLiterals o
      (p.topology.inputBits o j) (p.topology.outputBits o j) outcome
  | .conflict _ => ∃ o ∈ p.topology.operations, ∃ j < p.topology.wordSize, p.outcome? o j = none

theorem Kept.outcome? (h : p.Kept q) (o : Operation) (j : Nat) :
    q.outcome? o j = p.outcome? o j := by
  have hcondition : q.condition = p.condition := funext h.condition_eq
  simp only [Propagator.outcome?, h.topology, hcondition]

theorem Kept.columnLiterals (h : p.Kept q) (inputBits outputBits : List Bit) :
    q.columnLiterals o inputBits outputBits outcome =
      p.columnLiterals o inputBits outputBits outcome := by
  simp only [Propagator.columnLiterals, h.forced]

theorem Kept.fromColumn (h : p.Kept q) {found : Finding} (hf : q.FromColumn found) :
    p.FromColumn found := by
  cases found with
  | nothing => trivial
  | literals ls =>
    obtain ⟨o, ho, j, hj, outcome, houtcome, hls⟩ := hf
    rw [h.topology] at ho hj hls
    rw [h.columnLiterals] at hls
    exact ⟨o, ho, j, hj, outcome, (h.outcome? o j).symm.trans houtcome, hls⟩
  | conflict c =>
    obtain ⟨o, ho, j, hj, houtcome⟩ := hf
    rw [h.topology] at ho hj
    exact ⟨o, ho, j, hj, (h.outcome? o j).symm.trans houtcome⟩

theorem Ready.fromColumn (h : p.Ready False) {u : Site} (hu : u.column < p.topology.wordSize) :
    p.FromColumn (p.propagateColumn u).1 := by
  unfold propagateColumn
  dsimp only
  split
  · trivial
  · next o ho =>
    have hmem := Array.mem_of_getElem? ho
    have hresult := h.columnCache.getOrInsert (k := ⟨o.gate,
      (p.topology.inputBits o u.column).map p.condition,
      (p.topology.outputBits o u.column).map p.condition⟩)
      (f := fun k => Column.propagate k.gate k.inputs k.outputs) (.inl rfl)
    have hresult := hresult.1.resolve_right fun hrules => hrules.1
    split
    · next hnone =>
      unfold contradiction
      split
      · trivial
      · exact ⟨o, hmem, u.column, hu, hresult.symm.trans hnone⟩
    · next outcome houtcome =>
      unfold withReasons
      split
      · trivial
      · refine ⟨o, hmem, u.column, hu, outcome, hresult.symm.trans houtcome, ?_⟩
        rw [List.map_map]
        exact List.map_id _

theorem Ready.fromColumns (h : p.Ready False) (turns : Nat) :
    p.FromColumn (propagateColumns turns p).1 := by
  induction turns generalizing p with
  | zero => trivial
  | succ turns ih =>
    have hbelow := h.marks.nextColumn
    unfold propagateColumns
    split
    · trivial
    · next u marks heq =>
      rw [heq] at hbelow
      have hu := hbelow.1 u rfl
      have htaken : ({ p with marks } : Propagator ρ).Ready False := { h with marks := hbelow.2 }
      have hkept : p.Kept { p with marks } := ⟨rfl, rfl, rfl, rfl, rfl, rfl, rfl⟩
      split
      · next q hq =>
        have hready := (htaken.finds_propagateColumn hu).ready
        have hcolumn := hkept.trans (kept_propagateColumn { p with marks } u)
        rw [hq] at hready hcolumn
        exact hcolumn.fromColumn (ih hready)
      · exact hkept.fromColumn (htaken.fromColumn hu)

theorem Ready.fromPropagation (h : p.Ready False) (hbitwise : p.config.wordwise = false) :
    p.FromColumn p.findPropagation.1 := by
  have hcolumns := h.fromColumns (p.marks.marked.size + 1)
  have hkept := kept_propagateColumns (p.marks.marked.size + 1) p
  unfold findPropagation
  split
  · next q hq =>
    rw [hq] at hkept
    rw [if_neg (by rw [hkept.config, hbitwise]; nofun)]
    trivial
  · exact hcolumns

end ShaDiff.Propagator
