import Mathlib.Algebra.Group.Nat.Even
import Mathlib.Data.List.Basic
import ShaDiff.Proofs.TwoBit.Kernel

/-!
# Inconsistent collections are circuits

A sweep takes one row out, the pivot, and adds it to others. The equations that pivots came
from are independent: any of them name some swept column an odd number of times. A row that
is left is the sum of one equation of its own and of such pivots (`Eliminated`). Once all
columns are swept, equations it is the sum of that name every atom an even number of times
are therefore all of them (`picks_of_even`). Fewer equations have no such choice among them,
and that is what an elimination of those few alone would find if they had no solution. So
each collection is a circuit, minimal without a solution (`circuit_of_mem`).
-/

namespace ShaDiff.TwoBit.Kernel

open scoped List

variable {es : List Equation} {rs : List BitRow} {r s : BitRow} {c : Nat} {y : Nat → Bool}

-- ---------------------------------------------------------------------------
-- Choices of equations
-- ---------------------------------------------------------------------------

theorem total_perm {is js : List Nat} (h : is ~ js) (f : Nat → Bool) : total is f = total js f := by
  induction h with
  | nil => rfl
  | cons i _ ih => simp only [total, List.foldr_cons] at ih ⊢; rw [ih]
  | swap i j is => simp [total, Bool.xor_left_comm]
  | trans _ _ ih ih' => rw [ih, ih']

def names (es : List Equation) (c i : Nat) : Bool := sides es (fun d => decide (c = d)) i

def sumAt (es : List Equation) (y : Nat → Bool) (c : Nat) : Bool :=
  total (List.range es.length) fun i => y i && names es c i

theorem sumAt_xor (y z : Nat → Bool) :
    sumAt es (fun i => y i ^^ z i) c = (sumAt es y c ^^ sumAt es z c) := by
  rw [sumAt, sumAt, sumAt, ← total_xor]
  simp only [Bool.and_xor_distrib_right]

def picks (es : List Equation) (r : BitRow) (i : Nat) : Bool :=
  decide (i < es.length) && r.get (width es + i)

theorem IsSum.sumAt_picks (hr : IsSum es r) (hc : c < width es) :
    sumAt es (picks es r) c = r.get c := by
  have hright : sumAt es (picks es r) c = right es r (sides es fun d => decide (c = d)) := by
    apply total_congr
    intro i hi
    simp [picks, names, List.mem_range.mp hi]
  have hsingle := total_single List.nodup_range (List.mem_range.mpr hc) (f := r.get)
  rw [hright, ← hr.left, ← hsingle]
  exact total_congr fun d _ => Bool.and_comm ..

theorem picks_cancel (hr : IsSum es r) (i : Nat) :
    picks es (cancel c s r) i = (picks es r i ^^ (r.get c && picks es s i)) := by
  by_cases hi : i < es.length
  · simp [picks, hi, get_cancel hr c (Nat.add_lt_add_left hi _)]
  · simp [picks, hi]

theorem picks_rowAt {e : Equation} {i : Nat} (he : es[i]? = some e) (j : Nat) :
    picks es (rowAt es e i) j = decide (i = j) := by
  obtain ⟨hi, -⟩ := List.getElem?_eq_some_iff.mp he
  obtain ⟨ha, hb⟩ := idxOf_lt (List.mem_of_getElem? he)
  have ha' : (atoms es).idxOf e.a ≠ width es + j := by omega
  have hb' : (atoms es).idxOf e.b ≠ width es + j := by omega
  rw [picks, get_rowAt he]
  by_cases hij : i = j
  · simp [← hij, hi]
  · simp [hij, ha', hb']

-- ---------------------------------------------------------------------------
-- Pivots and rows of their own
-- ---------------------------------------------------------------------------

/-- What is known of the rows left once some columns are swept, given the equations that the
pivots came from. -/
structure Eliminated (es : List Equation) (columns pivots : List Nat) (rs : List BitRow) :
    Prop where
  bound : ∀ c ∈ columns, c < width es
  clear : ∀ r ∈ rs, ∀ c ∈ columns, r.get c = false
  own : ∀ r ∈ rs, ∃ i, i ∉ pivots ∧ picks es r i = true ∧
    ∀ j, picks es r j = true → j = i ∨ j ∈ pivots
  apart : rs.Pairwise fun r s => ∀ i, i ∉ pivots → picks es r i = true → picks es s i = false
  independent : ∀ y : Nat → Bool, (∀ i, y i = true → i ∈ pivots) →
    (∀ c ∈ columns, sumAt es y c = false) → ∀ i, y i = false

theorem eliminated_rows (es : List Equation) : Eliminated es [] [] (rows es) where
  bound := by simp
  clear := by simp
  own := by
    intro r hr
    obtain ⟨i, e, he, rfl⟩ := mem_rows.mp hr
    exact ⟨i, by simp, by simp [picks_rowAt he], by simp [picks_rowAt he, eq_comm]⟩
  apart := by
    apply List.pairwise_map.mpr
    apply List.pairwise_iff_getElem.mpr
    intro i j hi hj hlt k hk
    simp only [List.length_zipIdx] at hi hj
    simp only [List.getElem_zipIdx, Nat.zero_add]
    show picks es (rowAt es es[i] i) k = true → picks es (rowAt es es[j] j) k = false
    rw [picks_rowAt (List.getElem?_eq_getElem hi), picks_rowAt (List.getElem?_eq_getElem hj)]
    simp
    omega
  independent := by
    intro y hy _ i
    cases hi : y i with
    | false => rfl
    | true => cases hy i hi

theorem Eliminated.sweep {columns pivots : List Nat} (h : Eliminated es columns pivots rs)
    (hsum : ∀ r ∈ rs, IsSum es r) (hc : c < width es) :
    ∃ pivots', Eliminated es (c :: columns) pivots' (sweep rs c) := by
  have hbound : ∀ d ∈ c :: columns, d < width es := List.forall_mem_cons.mpr ⟨hc, h.bound⟩
  have hclear : ∀ r ∈ Kernel.sweep rs c, ∀ d ∈ c :: columns, r.get d = false := by
    intro r hr d hd
    rcases List.mem_cons.mp hd with rfl | hd
    · exact get_sweep_self hsum hc r hr
    · exact get_sweep_of_clear hsum (h.bound d hd) (fun q hq => h.clear q hq d hd) c r hr
  rcases sweep_cases rs c with ⟨-, hs⟩ | ⟨pivot, others, hget, hperm, hs⟩
  · refine ⟨pivots, hbound, hclear, ?_, ?_, ?_⟩
    · simpa [hs] using h.own
    · simpa [hs] using h.apart
    · intro y hy hzero
      exact h.independent y hy fun d hd => hzero d (.tail _ hd)
  have hpivot : pivot ∈ rs := hperm.mem_iff.mpr (.head _)
  have hother (q : BitRow) (hq : q ∈ others) : q ∈ rs := hperm.mem_iff.mpr (.tail _ hq)
  obtain ⟨p, hp, hpick, honly⟩ := h.own pivot hpivot
  have hapart : (pivot :: others).Pairwise fun r s =>
      ∀ i, i ∉ pivots → picks es r i = true → picks es s i = false := by
    refine hperm.pairwise h.apart ?_
    intro r s hrs i hi hpick'
    exact Bool.eq_false_iff.mpr fun hr => by simp [hrs i hi hr] at hpick'
  obtain ⟨hfrom, hamong⟩ := List.pairwise_cons.mp hapart
  -- a row has kept what is neither a pivot now nor was one
  have hkept (q : BitRow) (hq : q ∈ others) (i : Nat) (hi : i ∉ p :: pivots) :
      picks es (cancel c pivot q) i = picks es q i := by
    have hnot : picks es pivot i = false :=
      Bool.eq_false_iff.mpr fun hi' => hi (List.mem_cons.mpr (honly i hi'))
    rw [picks_cancel (hsum q (hother q hq)), hnot, Bool.and_false, Bool.xor_false]
  refine ⟨p :: pivots, hbound, hclear, ?_, ?_, ?_⟩
  · rw [hs]
    intro r hr
    obtain ⟨q, hq, rfl⟩ := List.mem_map.mp hr
    obtain ⟨i, hi, hpick', honly'⟩ := h.own q (hother q hq)
    have hne : i ≠ p := by
      rintro rfl
      simp [hfrom q hq i hi hpick] at hpick'
    refine ⟨i, by simp [hne, hi], ?_, ?_⟩
    · rw [hkept q hq i (by simp [hne, hi]), hpick']
    · intro j hj
      rw [picks_cancel (hsum q (hother q hq))] at hj
      by_cases hj' : picks es q j = true
      · exact (honly' j hj').imp_right (.tail _)
      · have : picks es pivot j = true := by simp_all
        exact .inr (List.mem_cons.mpr (honly j this))
  · rw [hs]
    apply List.pairwise_map.mpr
    refine hamong.imp_of_mem ?_
    intro q q' hq hq' hqq' i hi hpick'
    rw [hkept q hq i hi] at hpick'
    rw [hkept q' hq' i hi]
    exact hqq' i (fun hmem => hi (.tail _ hmem)) hpick'
  · intro y hy hzero
    cases hyp : y p with
    | false =>
      refine h.independent y ?_ fun d hd => hzero d (.tail _ hd)
      intro i hi
      refine (List.mem_cons.mp (hy i hi)).resolve_left ?_
      rintro rfl
      simp [hyp] at hi
    | true =>
      -- together with the row of the pivot the choice has only earlier pivots, so it is that row
      have hsame : ∀ i, (y i ^^ picks es pivot i) = false := by
        refine h.independent _ ?_ ?_
        · intro i hi
          by_cases hip : i = p
          · simp [hip, hyp, hpick] at hi
          · by_cases hyi : y i = true
            · exact (List.mem_cons.mp (hy i hyi)).resolve_left hip
            · exact (honly i (by simp_all)).resolve_left hip
        · intro d hd
          rw [sumAt_xor, hzero d (.tail _ hd),
            (hsum pivot hpivot).sumAt_picks (h.bound d hd), h.clear pivot hpivot d hd]
          rfl
      obtain rfl : y = picks es pivot := funext fun i => by simpa using hsame i
      have hodd := (hsum pivot hpivot).sumAt_picks hc
      rw [hzero c (.head _), hget] at hodd
      exact absurd hodd (by simp)

theorem Eliminated.foldl_sweep {columns pivots : List Nat} (h : Eliminated es columns pivots rs)
    (hsum : ∀ r ∈ rs, IsSum es r) (later : List Nat) (hlater : ∀ d ∈ later, d < width es) :
    ∃ columns' pivots', Eliminated es columns' pivots' (later.foldl Kernel.sweep rs) := by
  induction later generalizing columns pivots rs with
  | nil => exact ⟨columns, pivots, h⟩
  | cons c later ih =>
    obtain ⟨hc, hlater⟩ := List.forall_mem_cons.mp hlater
    obtain ⟨pivots', h'⟩ := h.sweep hsum hc
    exact ih h' (isSum_sweep hsum c) hlater

/-- A choice among the equations of a row that is left which names every column an even number
of times has none of them, or all. -/
theorem picks_of_even (hr : r ∈ remaining es) (hsub : ∀ i, y i = true → picks es r i = true)
    (hne : ∃ i, y i = true) (heven : ∀ c, c < width es → sumAt es y c = false) :
    ∀ i, picks es r i = true → y i = true := by
  obtain ⟨hsum, hclear, -⟩ := remaining_spec es
  obtain ⟨columns, pivots, h⟩ :=
    (eliminated_rows es).foldl_sweep isSum_rows (List.range (width es)) (by simp)
  obtain ⟨own, -, -, honly⟩ := h.own r hr
  cases hown : y own with
  | false =>
    -- a choice of pivots only is empty
    have hnone : ∀ i, y i = false := by
      refine h.independent y ?_ fun c hc => heven c (h.bound c hc)
      intro i hi
      refine (honly i (hsub i hi)).resolve_left ?_
      rintro rfl
      simp [hown] at hi
    obtain ⟨i, hi⟩ := hne
    simp [hnone i] at hi
  | true =>
    have hsame : ∀ i, (y i ^^ picks es r i) = false := by
      refine h.independent _ ?_ ?_
      · intro i hi
        have hpick : picks es r i = true := by
          cases hyi : y i with
          | false => simpa [hyi] using hi
          | true => exact hsub i hyi
        refine (honly i hpick).resolve_left ?_
        rintro rfl
        simp [hown, hpick] at hi
      · intro c hc
        have hlt := h.bound c hc
        rw [sumAt_xor, heven c hlt, (hsum r hr).sumAt_picks hlt, hclear r hr c hlt]
        rfl
    intro i hi
    simpa [hi] using hsame i

-- ---------------------------------------------------------------------------
-- Collections
-- ---------------------------------------------------------------------------

def chosen (es : List Equation) (places : List Nat) : List Equation := places.filterMap (es[·]?)

theorem mem_chosen {places : List Nat} {e : Equation} :
    e ∈ chosen es places ↔ ∃ i ∈ places, es[i]? = some e := by
  simp [chosen]

def occurrences (es : List Equation) (a : Atom) : Nat := (es.flatMap fun e => [e.a, e.b]).count a

/-- Whether the equations at some places name every atom an even number of times and have
values that sum to one, and all but any of them have a common solution. -/
structure Circuit (es : List Equation) (places : List Nat) : Prop where
  ascending : places.Pairwise (· < ·)
  valid : ∀ i ∈ places, i < es.length
  even : ∀ a, Even (occurrences (chosen es places) a)
  odd : ((chosen es places).map (·.value)).foldl xor false = true
  inconsistent : ¬ Consistent (chosen es places)
  minimal : ∀ fewer, fewer ⊆ places → ¬ places ⊆ fewer → Consistent (chosen es fewer)

def namesAtom (es : List Equation) (a : Atom) (i : Nat) : Bool :=
  (es[i]?.map fun e => decide (e.a = a) ^^ decide (e.b = a)).getD false

theorem even_occurrences_iff {places : List Nat} {a : Atom} :
    Even (occurrences (chosen es places) a) ↔ total places (namesAtom es a) = false := by
  induction places with
  | nil => simp [occurrences, chosen, total]
  | cons i is ih =>
    have htotal : total (i :: is) (namesAtom es a) =
        (namesAtom es a i ^^ total is (namesAtom es a)) := rfl
    rw [htotal]
    cases he : es[i]? with
    | none => simpa [chosen, he, namesAtom] using ih
    | some e =>
      have hcount : occurrences (chosen es (i :: is)) a =
          (if e.a = a then 1 else 0) + (if e.b = a then 1 else 0) +
            occurrences (chosen es is) a := by
        simp [occurrences, chosen, he, List.count_cons]
        omega
      rw [hcount, Nat.even_add, ih]
      by_cases ha : e.a = a <;> by_cases hb : e.b = a <;>
        simp [namesAtom, he, ha, hb, Nat.even_add_one]

theorem mem_atoms {a : Atom} : a ∈ atoms es ↔ ∃ e ∈ es, a = e.a ∨ a = e.b := by
  simp [atoms, List.mem_eraseDups]

theorem names_idxOf {a : Atom} (ha : a ∈ atoms es) (i : Nat) :
    names es ((atoms es).idxOf a) i = namesAtom es a i := by
  cases he : es[i]? with
  | none => simp [names, namesAtom, sides, he]
  | some e => simp [names, namesAtom, sides, he, List.idxOf_inj ha, eq_comm]

theorem names_of_ne (hc : ∀ a ∈ atoms es, (atoms es).idxOf a ≠ c) (i : Nat) :
    names es c i = false := by
  cases he : es[i]? with
  | none => simp [names, sides, he]
  | some e =>
    have hmem := List.mem_of_getElem? he
    have ha := hc e.a (mem_atoms.mpr ⟨e, hmem, .inl rfl⟩)
    have hb := hc e.b (mem_atoms.mpr ⟨e, hmem, .inr rfl⟩)
    simp [names, sides, he, ha.symm, hb.symm]

theorem namesAtom_of_not_mem {a : Atom} (ha : a ∉ atoms es) (i : Nat) :
    namesAtom es a i = false := by
  cases he : es[i]? with
  | none => simp [namesAtom, he]
  | some e =>
    have hmem := List.mem_of_getElem? he
    have hne : a ≠ e.a ∧ a ≠ e.b := by
      simpa [not_or] using fun h => ha (mem_atoms.mpr ⟨e, hmem, h⟩)
    simp [namesAtom, he, hne.1.symm, hne.2.symm]

/-- A choice and its places in a list sum up to the same. -/
theorem sumAt_places {places : List Nat} (hnodup : places.Nodup)
    (hy : ∀ i, i ∈ places ↔ i < es.length ∧ y i = true) (c : Nat) :
    sumAt es y c = total places (names es c) := by
  have hperm : places ~ (List.range es.length).filter y := by
    apply (List.perm_ext_iff_of_nodup hnodup (List.nodup_range.filter _)).mpr
    simpa using hy
  rw [total_perm hperm, total_filter]
  rfl

theorem mem_selected (hr : IsSum es r) {i : Nat} :
    i ∈ selected (width es) r ↔ picks es r i = true := by
  simp [selected_eq hr, picks]

theorem ascending_of_mem {places : List Nat} (h : places ∈ inconsistentSubsets es) :
    places.Pairwise (· < ·) := by
  obtain ⟨r, hr, rfl, -⟩ := mem_inconsistentSubsets.mp h
  rw [selected_eq ((remaining_spec es).1 r hr)]
  exact List.pairwise_lt_range.filter _

theorem lt_of_mem {places : List Nat} (h : places ∈ inconsistentSubsets es) :
    ∀ i ∈ places, i < es.length := by
  obtain ⟨r, hr, rfl, -⟩ := mem_inconsistentSubsets.mp h
  rw [selected_eq ((remaining_spec es).1 r hr)]
  intro i hi
  exact List.mem_range.mp (List.mem_filter.mp hi).1

theorem even_of_mem {places : List Nat} (h : places ∈ inconsistentSubsets es) (a : Atom) :
    Even (occurrences (chosen es places) a) := by
  have hnodup : places.Nodup := (ascending_of_mem h).imp Nat.ne_of_lt
  obtain ⟨hsum, hclear, -⟩ := remaining_spec es
  obtain ⟨r, hr, rfl, -⟩ := mem_inconsistentSubsets.mp h
  rw [even_occurrences_iff]
  by_cases ha : a ∈ atoms es
  · have hlt : (atoms es).idxOf a < width es := List.idxOf_lt_length_of_mem ha
    have hplaces (i : Nat) : i ∈ selected (width es) r ↔ i < es.length ∧ picks es r i = true := by
      rw [mem_selected (hsum r hr)]
      simp [picks]
    have htotal := sumAt_places hnodup hplaces ((atoms es).idxOf a)
    rw [(hsum r hr).sumAt_picks hlt, hclear r hr _ hlt] at htotal
    rw [htotal]
    exact total_congr fun i _ => (names_idxOf ha i).symm
  · exact total_eq_false fun i _ => namesAtom_of_not_mem ha i

theorem foldl_values (es : List Equation) (places : List Nat) :
    ((chosen es places).map (·.value)).foldl xor false = parity es places := by
  have key (p : Bool) : ((chosen es places).map (·.value)).foldl xor p =
      places.foldl (fun p i => p ^^ (es[i]?.map (·.value)).getD false) p := by
    induction places generalizing p with
    | nil => rfl
    | cons i is ih =>
      cases he : es[i]? with
      | none => simpa [chosen, he] using ih p
      | some e => simpa [chosen, he] using ih (p ^^ e.value)
  exact key false

theorem chosen_chosen {places : List Nat} (h : ∀ i ∈ places, i < es.length) (inner : List Nat) :
    chosen (chosen es places) inner = chosen es (inner.filterMap (places[·]?)) := by
  have hget (j : Nat) : (chosen es places)[j]? = places[j]?.bind (es[·]?) := by
    induction places generalizing j with
    | nil => rfl
    | cons i is ih =>
      obtain ⟨hi, his⟩ := List.forall_mem_cons.mp h
      cases j with
      | zero => simp [chosen, hi]
      | succ j => simpa [chosen, hi] using ih his j
  simp only [chosen, List.filterMap_filterMap]
  exact List.filterMap_congr fun j _ => hget j

/-- Some equations of a collection which name every atom an even number of times are all of
them. -/
theorem subset_of_even {places some : List Nat} (h : places ∈ inconsistentSubsets es)
    (hnodup : some.Nodup) (hne : some ≠ []) (hsub : some ⊆ places)
    (heven : ∀ a, Even (occurrences (chosen es some) a)) : places ⊆ some := by
  have hvalid := lt_of_mem h
  obtain ⟨hsum, -, -⟩ := remaining_spec es
  obtain ⟨r, hr, rfl, -⟩ := mem_inconsistentSubsets.mp h
  have hzero (c : Nat) : sumAt es (fun i => decide (i ∈ some)) c = false := by
    have hplaces : ∀ i, i ∈ some ↔ i < es.length ∧ decide (i ∈ some) = true := by
      simpa using fun i hi => hvalid i (hsub hi)
    rw [sumAt_places hnodup hplaces]
    by_cases hc : ∃ a ∈ atoms es, (atoms es).idxOf a = c
    · obtain ⟨a, ha, rfl⟩ := hc
      rw [← even_occurrences_iff.mp (heven a)]
      exact total_congr fun i _ => names_idxOf ha i
    · exact total_eq_false fun i _ => names_of_ne (by simpa using hc) i
  have hpicks (i : Nat) (hi : decide (i ∈ some) = true) : picks es r i = true :=
    (mem_selected (hsum r hr)).mp (hsub (of_decide_eq_true hi))
  have hsome : ∃ i, decide (i ∈ some) = true := by
    simpa using List.exists_mem_of_ne_nil some hne
  intro i hi
  have hpick := (mem_selected (hsum r hr)).mp hi
  exact of_decide_eq_true (picks_of_even hr hpicks hsome (fun c _ => hzero c) i hpick)

/-- Fewer equations than a collection have a solution, as otherwise an elimination of those alone
had found some among them that name each atom an even number of times. -/
theorem consistent_of_fewer {places fewer : List Nat} (h : places ∈ inconsistentSubsets es)
    (hsub : fewer ⊆ places) (hless : ¬ places ⊆ fewer) : Consistent (chosen es fewer) := by
  have hnodup : places.Nodup := (ascending_of_mem h).imp Nat.ne_of_lt
  -- the fewer ones, each once
  let few := places.filter (· ∈ fewer)
  have hfew : few.Nodup := hnodup.filter _
  have hvalid : ∀ i ∈ few, i < es.length := fun i hi => lt_of_mem h i (List.mem_filter.mp hi).1
  suffices Consistent (chosen es few) by
    apply this.subset
    intro e he
    obtain ⟨i, hi, he⟩ := mem_chosen.mp he
    exact mem_chosen.mpr ⟨i, by simp [few, hi, hsub hi], he⟩
  rw [← inconsistentSubsets_eq_nil, List.eq_nil_iff_forall_not_mem]
  intro inner hinner
  have hmem : ∀ i ∈ inner.filterMap (few[·]?), i ∈ few := by
    intro i hi
    obtain ⟨j, -, hj⟩ := List.mem_filterMap.mp hi
    exact List.mem_of_getElem? hj
  refine hless fun i hi => ?_
  have hfound : i ∈ inner.filterMap (few[·]?) := by
    refine subset_of_even h ?_ ?_ ?_ ?_ hi
    · apply ((ascending_of_mem hinner).imp Nat.ne_of_lt).filterMap
      intro j k hjk x hx y hy
      rintro rfl
      exact hjk ((List.getElem?_inj (List.getElem?_eq_some_iff.mp hx).1 hfew).mp (hx.trans hy.symm))
    · intro hnil
      apply not_consistent_of_mem hinner
      have := chosen_chosen hvalid inner
      rw [hnil, chosen] at this
      rw [this]
      exact ⟨fun _ => false, by simp [chosen, Solves]⟩
    · exact fun i hi => (List.mem_filter.mp (hmem i hi)).1
    · intro a
      rw [← chosen_chosen hvalid]
      exact even_of_mem hinner a
  simpa using (List.mem_filter.mp (hmem i hfound)).2

theorem circuit_of_mem {places : List Nat} (h : places ∈ inconsistentSubsets es) :
    Circuit es places where
  ascending := ascending_of_mem h
  valid := lt_of_mem h
  even := even_of_mem h
  odd := (foldl_values es places).trans (List.mem_filter.mp h).2
  inconsistent := not_consistent_of_mem h
  minimal _ := consistent_of_fewer h

/-- Every collection is a circuit, and the clause is the one of a collection: while all its
literals are false, the equations of a circuit are live. -/
theorem inconsistentSubsets_circuits (es : List Equation) :
    (∀ places ∈ inconsistentSubsets es, Circuit es places) ∧
      ∀ c, shortestClause? es = some c → ∃ places ∈ inconsistentSubsets es, Circuit es places ∧
        c.Ascending ∧ (∀ l, l ∈ c ↔ ∃ e ∈ chosen es places, l ∈ e.antecedent) ∧
        ∀ value? : Literal → Option Bool, (∀ l ∈ c, value? l = some false) →
          ∀ e ∈ chosen es places, e.isLive value? = true := by
  refine ⟨fun places => circuit_of_mem, ?_⟩
  intro c h
  obtain ⟨⟨n, c'⟩, hfound, rfl⟩ := Option.map_eq_some_iff.mp h
  obtain ⟨places, hplaces, hpair⟩ := List.mem_map.mp (mem_of_firstLeast hfound)
  obtain ⟨-, rfl⟩ := Prod.mk.inj hpair
  have hunion : ∀ l, l ∈ blockingClause es places ↔ ∃ e ∈ chosen es places, l ∈ e.antecedent :=
    fun l => Equation.mem_blockingClause
  refine ⟨places, hplaces, circuit_of_mem hplaces, Clause.ascending_ofList _, hunion, ?_⟩
  intro value? hfalse e he
  apply List.all_eq_true.mpr
  intro l hl
  simpa using hfalse l ((hunion l).mpr ⟨e, he, hl⟩)

/-- Two triangles with a side in common. -/
def triangles : List Equation :=
  [⟨1, 2, true, [⟨11, true⟩, ⟨12, false⟩]⟩, ⟨2, 3, false, [⟨13, true⟩]⟩,
    ⟨1, 3, false, [⟨12, false⟩]⟩, ⟨3, 4, true, []⟩, ⟨2, 4, false, [⟨11, true⟩]⟩]

theorem inconsistentSubsets_circuits_triangles :
    [0, 1, 2] ∈ inconsistentSubsets triangles ∧
      Consistent (chosen triangles [0, 2]) ∧
      shortestClause? triangles = some [⟨11, true⟩, ⟨13, true⟩] ∧
      ∃ places ∈ inconsistentSubsets triangles, ∀ e ∈ chosen triangles places,
        e.isLive (fun l => some (decide (l = ⟨12, false⟩))) = true := by
  have hfound : inconsistentSubsets triangles = [[0, 1, 2], [1, 3, 4]] := by decide +kernel
  have hclause : shortestClause? triangles = some [⟨11, true⟩, ⟨13, true⟩] := by decide +kernel
  obtain ⟨hcircuits, hshortest⟩ := inconsistentSubsets_circuits triangles
  obtain ⟨places, hplaces, -, -, -, hlive⟩ := hshortest _ hclause
  refine ⟨by simp [hfound], ?_, hclause, places, hplaces, hlive _ (by decide)⟩
  exact (hcircuits [0, 1, 2] (by simp [hfound])).minimal [0, 2] (by decide) (by decide)

end ShaDiff.TwoBit.Kernel
