import ShaDiff.Proofs.Sum.Carry
import ShaDiff.Sum.Derivation

/-!
# Propagation of a sum loses no pair

Words are counted through the positive and then the negative ones, and a table gives
the condition, and the pair, of each bit of each word. Where the signed differences
of the words satisfy the sum, those of the open words satisfy what is left of it
once the grounded words are folded into the constant (`dvd_constant_iff`). So the sum
is not contradictory, and all that is derived allows the pairs (`propagate_sound`).
-/

namespace ShaDiff.Sum

open Condition (Allow)

def row (size : Nat) (table : Nat → Nat → α) (i : Nat) : List α := (List.range size).map (table i)

def signedDifference : List Pair → Int
  | [] => 0
  | p :: ps => p.signed + 2 * signedDifference ps

-- ---------------------------------------------------------------------------
-- Totals
-- ---------------------------------------------------------------------------

section

variable (is : List α) (f g : α → Int)

theorem total_map_add : total (is.map fun i => f i + g i) = total (is.map f) + total (is.map g) := by
  induction is with
  | nil => rfl
  | cons i is ih =>
    simp only [List.map_cons, total, ih]
    omega

theorem total_map_double : total (is.map fun i => 2 * f i) = 2 * total (is.map f) := by
  induction is with
  | nil => rfl
  | cons i is ih =>
    simp only [List.map_cons, total, ih]
    omega

theorem total_filter (p : α → Bool) : total (is.map f) =
    total ((is.filter p).map f) + total ((is.filter (!p ·)).map f) := by
  induction is with
  | nil => rfl
  | cons i is ih =>
    simp only [List.map_cons, total, ih, List.filter_cons]
    cases p i <;> simp only [Bool.not_false, Bool.not_true, if_true, Bool.false_eq_true, if_false,
      List.map_cons, total] <;> omega

end

theorem signedTotal_columns (σ : Nat → Nat → Pair) (is cols : List Nat) :
    signedTotal (cols.map fun col => is.map (σ · col)) =
      total (is.map fun i => signedDifference (cols.map (σ i))) := by
  induction cols with
  | nil =>
    show 0 = total (is.map fun _ => 0)
    induction is with
    | nil => rfl
    | cons i is ih => exact ih.trans (Int.zero_add _).symm
  | cons col cols ih =>
    simp only [List.map_cons, signedTotal, signedDifference, total_map_add, total_map_double, ih,
      List.map_map, Function.comp_def]

-- ---------------------------------------------------------------------------
-- Grounded words
-- ---------------------------------------------------------------------------

theorem signed?_of_allow {cs : List Condition} {ps : List Pair} (h : Allow cs ps) :
    Modular.signed? cs = if isGrounded cs then some (signedDifference ps) else none := by
  induction h with
  | nil => rfl
  | @cons c p cs ps hp _ ih =>
    simp only [Modular.signed?, ih, Condition.signed_of_signed? hp, isGrounded, List.all_cons]
    by_cases hc : c.grounded = true <;> by_cases hcs : cs.all (·.grounded) = true <;>
      simp [hc, hcs, signedDifference]

theorem modulus_pos (size : Nat) : (0 : Int) < Modular.modulus size := by
  rw [Modular.modulus, Nat.one_shiftLeft]
  exact Int.natCast_pos.mpr (Nat.two_pow_pos _)

theorem ofNat_toNat_emod (d : Int) (size : Nat) :
    Int.ofNat (d % Modular.modulus size).toNat = d % Modular.modulus size :=
  Int.toNat_of_nonneg (Int.emod_nonneg _ (Int.ne_of_gt (modulus_pos size)))

section

variable {size a b : Nat} {conditions : Nat → Nat → Condition} {σ : Nat → Nat → Pair}

theorem groundedTotal_rows {is : List Nat}
    (h : ∀ i ∈ is, Allow (row size conditions i) (row size σ i)) :
    (Modular.modulus size : Int) ∣ groundedTotal (is.map (row size conditions)) -
      total ((is.filter fun i => isGrounded (row size conditions i)).map
        fun i => signedDifference (row size σ i)) := by
  induction is with
  | nil => exact ⟨0, rfl⟩
  | cons i is ih =>
    obtain ⟨k, hk⟩ := ih fun j hj => h j (.tail _ hj)
    have hsigned := signed?_of_allow (h i (.head _))
    have hlength : (row size conditions i).length = size := by simp [row]
    simp only [groundedTotal, List.map_cons, List.filterMap_cons, List.filter_cons,
      Modular.toInteger?, hsigned, hlength] at hk ⊢
    cases isGrounded (row size conditions i) with
    | false => exact ⟨k, hk⟩
    | true =>
      refine ⟨k - signedDifference (row size σ i) / Modular.modulus size, ?_⟩
      simp only [if_true, Option.map_some, List.map_cons, total]
      rw [ofNat_toNat_emod, Int.emod_def, Int.mul_sub, ← hk]
      omega

-- ---------------------------------------------------------------------------
-- Open words
-- ---------------------------------------------------------------------------

theorem openWords?_eq_some {positive negative : List (List Condition)} {places : List Nat}
    (h : openWords? positive negative = some places) :
    (positive.all isGrounded = true ∨ negative.all isGrounded = true) ∧
      ¬ (positive.all isGrounded = true ∧ negative.all isGrounded = true) ∧
      places = (List.range (positive ++ negative).length).filter
        fun i => !isGrounded ((positive ++ negative).getD i []) := by
  have hzero (ws : List (List Condition)) :
      ws.countP (!isGrounded ·) = 0 ↔ ws.all isGrounded = true := by
    simp [List.countP_eq_zero]
  simp only [openWords?, Option.ite_none_left_eq_some, Option.some.injEq, not_or] at h
  obtain ⟨⟨hopen, hsides, -⟩, -, rfl⟩ := h
  rw [hzero, hzero] at hopen
  refine ⟨?_, hopen, rfl⟩
  rw [← hzero, ← hzero]
  omega

theorem cast_constant {positive negative : List (List Condition)} {size : Nat}
    (hsize : ((positive ++ negative).head?.getD []).length = size) :
    (constant positive negative : Int) =
      (if positive.all isGrounded then groundedTotal positive - groundedTotal negative
        else -(groundedTotal positive - groundedTotal negative)) % Modular.modulus size := by
  rw [constant, hsize]
  exact ofNat_toNat_emod _ size

/-- What is left of a sum once its grounded words are folded into the constant. -/
theorem dvd_constant_iff {ps ns : List Nat} (hne : ps ++ ns ≠ [])
    (hall : ∀ i ∈ ps ++ ns, Allow (row size conditions i) (row size σ i))
    (hside : (ps.map (row size conditions)).all isGrounded = true ∨
      (ns.map (row size conditions)).all isGrounded = true) :
    (Modular.modulus size : Int) ∣
      total (((ps ++ ns).filter fun i => !isGrounded (row size conditions i)).map
        fun i => signedDifference (row size σ i)) -
      constant (ps.map (row size conditions)) (ns.map (row size conditions)) ↔
    (Modular.modulus size : Int) ∣
      total (ps.map fun i => signedDifference (row size σ i)) -
        total (ns.map fun i => signedDifference (row size σ i)) := by
  have hempty {is : List Nat} (h : (is.map (row size conditions)).all isGrounded = true) :
      is.filter (fun i => !isGrounded (row size conditions i)) = [] := by
    rw [List.filter_eq_nil_iff]
    intro i hi
    simp [List.all_eq_true.mp h _ (List.mem_map_of_mem hi)]
  have hlength : (((ps.map (row size conditions)) ++ (ns.map (row size conditions))).head?.getD
      []).length = size := by
    rw [← List.map_append]
    cases hl : ps ++ ns with
    | nil => exact absurd hl hne
    | cons i is => simp [row]
  obtain ⟨kp, hkp⟩ := groundedTotal_rows fun i hi => hall i (List.mem_append_left _ hi)
  obtain ⟨kn, hkn⟩ := groundedTotal_rows fun i hi => hall i (List.mem_append_right _ hi)
  rw [total_filter ps _ fun i => isGrounded (row size conditions i),
    total_filter ns _ fun i => isGrounded (row size conditions i), cast_constant hlength,
    List.filter_append, List.map_append, total_append, Int.emod_def]
  by_cases hp : (ps.map (row size conditions)).all isGrounded = true
  · rw [hempty hp, if_pos hp]
    generalize (_ : Int) / _ = q
    refine Int.dvd_iff_dvd_of_dvd_add ⟨kn - kp + q, ?_⟩
    rw [Int.mul_add, Int.mul_sub]
    simp only [List.map_nil, total]
    omega
  · rw [hempty (hside.resolve_left hp), if_neg hp]
    generalize (_ : Int) / _ = q
    refine Int.dvd_iff_dvd_of_dvd_sub ⟨kp - kn + q, ?_⟩
    rw [Int.mul_add, Int.mul_sub]
    simp only [List.map_nil, total]
    omega

-- ---------------------------------------------------------------------------
-- Derived words
-- ---------------------------------------------------------------------------

theorem forall_replace {words derived : List (List Condition)} {places : List Nat} {m : Nat}
    {P : Nat → List Condition → Prop}
    (h : ∀ i < m, ∃ cs, words[i]? = some cs ∧ (i ∉ places → P i cs))
    (hd : List.Forall₂ P places derived) :
    ∀ i < m, ∃ cs, (replace words places derived)[i]? = some cs ∧ P i cs := by
  unfold replace
  induction hd generalizing words with
  | nil => simpa using h
  | @cons place cs places derived hcs _ ih =>
    refine ih fun i hi => ?_
    obtain ⟨ds, hds, hP⟩ := h i hi
    by_cases hplace : place = i
    · subst hplace
      obtain ⟨hlt, -⟩ := List.getElem?_eq_some_iff.mp hds
      exact ⟨cs, List.getElem?_set_self hlt, fun _ => hcs⟩
    · refine ⟨ds, by rw [List.getElem?_set_ne hplace, hds], fun hnot => hP ?_⟩
      simp [Ne.symm hplace, hnot]

theorem length_replace (words derived : List (List Condition)) (places : List Nat) :
    (replace words places derived).length = words.length := by
  unfold replace
  induction places.zip derived generalizing words with
  | nil => rfl
  | cons entry entries ih => simp [ih]

theorem allow_ofColumns {settled : List Settled} {places : List Nat}
    (h : List.Forall₂ Settled.Keeps settled
      ((List.range size).map fun col => places.map (σ · col))) :
    List.Forall₂ (fun i cs => Allow cs (row size σ i)) places
      (ofColumns (settled.map (·.conditions)) places.length) := by
  rw [List.forall₂_iff_get]
  refine ⟨by simp [ofColumns], fun k hk _ => ?_⟩
  simp only [ofColumns, List.get_eq_getElem, List.getElem_map, List.getElem_range, row, Allow,
    List.map_map, List.forall₂_map_left_iff, List.forall₂_map_right_iff] at h ⊢
  refine h.imp fun s col hkeeps => ?_
  have hget := (List.forall₂_iff_get.mp hkeeps.1).2 k (by
    rw [hkeeps.1.length_eq, List.length_map]; exact hk) (by simpa using hk)
  rw [Function.comp_apply, List.getD_eq_getElem?_getD, List.getElem?_eq_getElem]
  simpa using hget

theorem sum_of_mem_wordRelations {settled : List Settled} {places : List Nat}
    (h : List.Forall₂ Settled.Keeps settled
      ((List.range size).map fun col => places.map (σ · col)))
    {r : WordRelation} (hr : r ∈ wordRelations places settled) :
    r.first ∈ places ∧ r.second ∈ places ∧ r.column < size ∧
      ((σ r.first r.column).differs ^^ (σ r.second r.column).differs) = r.value := by
  obtain ⟨rs, hrs, hr⟩ := List.mem_flatten.mp hr
  obtain ⟨⟨s, col⟩, hs, rfl⟩ := List.mem_map.mp hrs
  obtain ⟨q, hq, rfl⟩ := List.mem_map.mp hr
  have hs := List.mk_mem_zipIdx_iff_getElem?.mp hs
  obtain ⟨hlt, hget⟩ := List.getElem?_eq_some_iff.mp hs
  have hsize : settled.length = size := by simpa using h.length_eq
  obtain ⟨h1, h2, hsum⟩ := Relation.sum_of_mem_all hq
  have hkeeps := (List.forall₂_iff_get.mp h).2 col hlt (by simpa [hsize] using hsize ▸ hlt)
  rw [List.get_eq_getElem, hget] at hkeeps
  simp only [List.get_eq_getElem, List.getElem_map, List.getElem_range] at hkeeps
  have hpattern := hsum _ hkeeps.2
  simp only [Relation.difference, List.getD_eq_getElem?_getD, List.map_map, List.getElem?_map,
    List.getElem?_eq_getElem h1, List.getElem?_eq_getElem h2, Option.map_some, Option.getD_some,
    Function.comp_apply] at hpattern ⊢
  exact ⟨List.getElem_mem h1, List.getElem_mem h2, hsize ▸ hlt, hpattern⟩

-- ---------------------------------------------------------------------------
-- Propagation
-- ---------------------------------------------------------------------------

/-- Whether a derivation allows the pairs of a number of words, and its relations
agree with them. -/
def Derivation.Respects (d : Derivation) (words size : Nat) (σ : Nat → Nat → Pair) : Prop :=
  match d with
  | .skipped => True
  | .contradiction => False
  | .refined found relations =>
    (∀ i < words, ∃ cs, found[i]? = some cs ∧ Allow cs (row size σ i)) ∧
      ∀ r ∈ relations, r.first < words ∧ r.second < words ∧ r.column < size ∧
        ((σ r.first r.column).differs ^^ (σ r.second r.column).differs) = r.value

theorem allow_entry {i col : Nat} (h : Allow (row size conditions i) (row size σ i))
    (hcol : col < size) : (conditions i col).allows (σ i col) = true := by
  have hget := (List.forall₂_iff_get.mp h).2 col (by simpa [row]) (by simpa [row])
  simpa [row] using hget

theorem settleWords_sound {places : List Nat} {constant : Nat} (hne : places ≠ [])
    (hsize : size ≤ Modular.bitsMax)
    (hall : ∀ i ∈ places, Allow (row size conditions i) (row size σ i))
    (hsum : (Modular.modulus size : Int) ∣
      total (places.map fun i => signedDifference (row size σ i)) - constant) :
    ∃ settled, settleWords (places.map (row size conditions)) constant = some settled ∧
      List.Forall₂ Settled.Keeps settled
        ((List.range size).map fun col => places.map (σ · col)) := by
  have hcolumns : List.Forall₂ Allow (columns (places.map (row size conditions)) size)
      ((List.range size).map fun col => places.map (σ · col)) := by
    rw [columns, List.forall₂_map_left_iff, List.forall₂_map_right_iff]
    refine List.forall₂_same.mpr fun col hcol => ?_
    rw [List.map_map]
    refine Condition.Allow.map fun i hi => ?_
    have hcol := List.mem_range.mp hcol
    simpa [row, hcol] using allow_entry (hall i hi) hcol
  have hpath : Path ((List.range size).map fun col => places.map (σ · col)) constant 0 := by
    refine path_of_dvd ?_
    rw [signedTotal_columns, List.length_map, List.length_range, Int.zero_add]
    rwa [Modular.modulus, Nat.min_eq_left hsize] at hsum
  obtain ⟨alive, settled, hsettle, -, hkeeps⟩ :=
    settle_sound hcolumns hpath (List.mem_singleton_self 0)
  refine ⟨settled, ?_, hkeeps⟩
  cases places with
  | nil => exact absurd rfl hne
  | cons i is =>
    have hlength : (row size conditions i).length = size := by simp [row]
    simp only [List.map_cons, settleWords_cons] at hsettle ⊢
    rw [hlength, hsettle]
    rfl

theorem getElem?_rows {m i : Nat} (hi : i < m) :
    ((List.range m).map (row size conditions))[i]? = some (row size conditions i) := by
  simp [hi]

theorem openWords?_rows {ps ns places : List Nat} {m : Nat} (hindex : ps ++ ns = List.range m)
    (h : openWords? (ps.map (row size conditions)) (ns.map (row size conditions)) = some places) :
    ((ps.map (row size conditions)).all isGrounded = true ∨
        (ns.map (row size conditions)).all isGrounded = true) ∧
      places = ((ps ++ ns).filter fun i => !isGrounded (row size conditions i)) ∧
      places ≠ [] := by
  obtain ⟨hside, hopen, hplaces⟩ := openWords?_eq_some h
  have hplaces : places = (ps ++ ns).filter fun i => !isGrounded (row size conditions i) := by
    rw [hplaces, ← List.map_append, hindex, List.length_map, List.length_range]
    refine List.filter_congr fun i hi => ?_
    rw [List.getD_eq_getElem?_getD, getElem?_rows (List.mem_range.mp hi)]
    rfl
  refine ⟨hside, hplaces, fun hnil => ?_⟩
  rw [hplaces, List.filter_eq_nil_iff] at hnil
  simp only [List.all_eq_true, List.forall_mem_map] at hopen
  refine hopen ⟨fun i hi => ?_, fun i hi => ?_⟩
  · simpa using hnil i (List.mem_append_left _ hi)
  · simpa using hnil i (List.mem_append_right _ hi)

theorem propagate_sound {ps ns : List Nat} {m : Nat} (hindex : ps ++ ns = List.range m)
    (hsize : size ≤ Modular.bitsMax)
    (hall : ∀ i < m, Allow (row size conditions i) (row size σ i))
    (hsum : (Modular.modulus size : Int) ∣
      total (ps.map fun i => signedDifference (row size σ i)) -
        total (ns.map fun i => signedDifference (row size σ i))) :
    (propagate (ps.map (row size conditions)) (ns.map (row size conditions))).Respects m size σ := by
  have hwords : ps.map (row size conditions) ++ ns.map (row size conditions) =
      (List.range m).map (row size conditions) := by
    rw [← List.map_append, hindex]
  unfold propagate
  cases hopen : openWords? (ps.map (row size conditions)) (ns.map (row size conditions)) with
  | none => exact trivial
  | some places =>
    obtain ⟨hside, hplaces, hne⟩ := openWords?_rows hindex hopen
    have hlt (i : Nat) (hi : i ∈ places) : i < m := by
      rw [hplaces, hindex] at hi
      exact List.mem_range.mp (List.mem_filter.mp hi).1
    have hopened : places.map (((List.range m).map (row size conditions)).getD · []) =
        places.map (row size conditions) := by
      refine List.map_congr_left fun i hi => ?_
      rw [List.getD_eq_getElem?_getD, getElem?_rows (hlt i hi)]
      rfl
    have hsum' := (dvd_constant_iff
      (fun h => hne (by rw [hplaces, h]; rfl))
      (fun i hi => hall i (List.mem_range.mp (hindex ▸ hi))) hside).mpr hsum
    rw [← hplaces] at hsum'
    obtain ⟨settled, hsettle, hkeeps⟩ :=
      settleWords_sound hne hsize (fun i hi => hall i (hlt i hi)) hsum'
    simp only [hwords, hopened, hsettle, List.length_map]
    refine ⟨forall_replace (fun i hi => ⟨_, getElem?_rows hi, fun _ => hall i hi⟩)
      (allow_ofColumns hkeeps), fun r hr => ?_⟩
    obtain ⟨h1, h2, h3, h4⟩ := sum_of_mem_wordRelations hkeeps hr
    exact ⟨hlt _ h1, hlt _ h2, h3, h4⟩

end

end ShaDiff.Sum
