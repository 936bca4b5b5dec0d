import ShaDiff.Proofs.Column.Related
import ShaDiff.Proofs.Sum.Exact

/-!
# Sums are propagated exactly

A balance is a choice of pairs for all words of a sum, grounded ones included, whose positive
and negative signed differences have the same total. Its open words solve what is left of the
sum (`balances_iff`), and each solution of that is the part of a balance on the open words
(`exists_solves_iff`), as the grounded words can have any of their pairs. So settled columns
have just what balances use, also the patterns from which relations between words are read
(`mem_patterns_iff`, `mem_wordRelations_iff`). All of the answer is given by the balances
(`checked_balanced`).
-/

namespace ShaDiff

theorem Condition.signed_eq_of_grounded {c : Condition} (hc : c.grounded = true) {p q : Pair}
    (hp : c.allows p = true) (hq : c.allows q = true) : p.signed = q.signed := by
  have hsigned := (signed_of_signed? hp).symm.trans (signed_of_signed? hq)
  simpa [hc] using hsigned

theorem Condition.exists_of_grounded {c : Condition} (hc : c.grounded = true) :
    ∃ p, c.allows p = true := by
  have key : ∀ m : BitVec 4, (Condition.mk m).grounded = true →
      ∃ p ∈ Pair.all, (Condition.mk m).allows p = true := by decide
  obtain ⟨p, -, hp⟩ := key c.mask hc
  exact ⟨p, hp⟩

namespace Sum

open Condition (Allow)

variable {words positive negative : List (List Condition)} {n : Nat} {σ τ : Nat → Nat → Pair}

-- ---------------------------------------------------------------------------
-- Balances
-- ---------------------------------------------------------------------------

def Fits (words : List (List Condition)) (σ : Nat → Nat → Pair) : Prop :=
  ∀ (i j : Nat) word c, words[i]? = some word → word[j]? = some c → c.allows (σ i j) = true

/-- Whether the words allow the pairs of a table, positive words first, and the total of the
signed differences is the same on both sides, modulo two to the number of bits. -/
def Balances (positive negative : List (List Condition)) (n : Nat) (σ : Nat → Nat → Pair) : Prop :=
  Fits (positive ++ negative) σ ∧
    ∑ i ∈ Finset.range positive.length, ∑ j ∈ Finset.range n, 2 ^ j * (σ i j).signed
      ≡ ∑ i ∈ Finset.range negative.length,
          ∑ j ∈ Finset.range n, 2 ^ j * (σ (positive.length + i) j).signed [ZMOD 2 ^ n]

/-- Whether words of given bits, positive words first, have the same total on both sides, modulo
two to the number of bits. -/
def SumHolds (positive negative n : Nat) (bits : Nat → Nat → Bool) : Prop :=
  ∑ i ∈ Finset.range positive, ∑ j ∈ Finset.range n, 2 ^ j * (bits i j).toNat
    ≡ ∑ i ∈ Finset.range negative,
        ∑ j ∈ Finset.range n, 2 ^ j * (bits (positive + i) j).toNat [MOD 2 ^ n]

theorem balances_of_instances (hfits : Fits (positive ++ negative) σ)
    (hfirst : SumHolds positive.length negative.length n fun i j => (σ i j).first)
    (hsecond : SumHolds positive.length negative.length n fun i j => (σ i j).second) :
    Balances positive negative n σ := by
  refine ⟨hfits, ?_⟩
  have hsigned (p : Pair) : p.signed = (p.first.toNat : Int) - p.second.toNat := by
    rcases p with ⟨_ | _, _ | _⟩ <;> rfl
  have hdifference := (Int.natCast_modEq_iff.mpr hfirst).sub (Int.natCast_modEq_iff.mpr hsecond)
  simpa [hsigned, mul_sub, Finset.sum_sub_distrib] using hdifference

/-- Pairs of the same signed differences may be exchanged. -/
theorem Balances.exchange (h : Balances positive negative n σ)
    (hfits : Fits (positive ++ negative) τ) (hsame : ∀ i j, (τ i j).signed = (σ i j).signed) :
    Balances positive negative n τ := by
  refine ⟨hfits, ?_⟩
  simpa only [hsame] using h.2

def ConstantAt (positive negative : List (List Condition)) (n i j : Nat) : Prop :=
  ∃ value, ∀ σ, Balances positive negative n σ → (σ i j).differs = value

theorem not_constantAt_iff {i j : Nat} : ¬ ConstantAt positive negative n i j ↔
    (∃ σ, Balances positive negative n σ ∧ (σ i j).differs = true) ∧
      ∃ σ, Balances positive negative n σ ∧ (σ i j).differs = false := by
  constructor
  · intro h
    constructor
    · by_contra hnone
      exact h ⟨false, fun σ hσ => Bool.eq_false_iff.mpr fun hd => hnone ⟨σ, hσ, hd⟩⟩
    · by_contra hnone
      exact h ⟨true, fun σ hσ => Bool.not_eq_false _ ▸ fun hd => hnone ⟨σ, hσ, hd⟩⟩
  · rintro ⟨⟨σ, hσ, htrue⟩, τ, hτ, hfalse⟩ ⟨value, hvalue⟩
    have hsame := (hvalue σ hσ).trans (hvalue τ hτ).symm
    simp [htrue, hfalse] at hsame

-- ---------------------------------------------------------------------------
-- Words as rows of a table
-- ---------------------------------------------------------------------------

def entry (words : List (List Condition)) (i j : Nat) : Condition := (words.getD i []).getD j .any

theorem eq_rows (hsize : ∀ word ∈ words, word.length = n) :
    words = (List.range words.length).map (row n (entry words)) := by
  apply List.ext_getElem
  · simp
  · intro i hi _
    apply List.ext_getElem
    · simp [row, hsize _ (List.getElem_mem hi)]
    · intro j hj _
      simp [row, entry, hi, hj]

theorem getElem_eq_entry {i j : Nat} (hi : i < words.length) (hj : j < words[i].length) :
    words[i][j] = entry words i j := by
  simp [entry, hi, hj]

theorem getElem?_entry (hsize : ∀ word ∈ words, word.length = n) {i j : Nat}
    (hi : i < words.length) (hj : j < n) : (words.getD i [])[j]? = some (entry words i j) := by
  have hlt : j < words[i].length := by simpa [hsize _ (List.getElem_mem hi)] using hj
  simp [entry, hi, hlt]

theorem fits_iff (hsize : ∀ word ∈ words, word.length = n) :
    Fits words σ ↔ ∀ i < words.length, ∀ j < n, (entry words i j).allows (σ i j) = true := by
  constructor
  · intro h i hi j hj
    exact h i j _ _ (by simp [hi]) (getElem?_entry hsize hi hj)
  · intro h i j word c hword hc
    obtain ⟨hi, rfl⟩ := List.getElem?_eq_some_iff.mp hword
    obtain ⟨hj, rfl⟩ := List.getElem?_eq_some_iff.mp hc
    have hlt : j < n := by simpa [hsize _ (List.getElem_mem hi)] using hj
    rw [getElem_eq_entry]
    exact h i hi j hlt

theorem allow_rows (hsize : ∀ word ∈ words, word.length = n) (h : Fits words σ) :
    ∀ i < words.length, Allow (row n (entry words) i) (row n σ i) := by
  intro i hi
  apply Condition.Allow.map
  intro j hj
  exact (fits_iff hsize).mp h i hi j (List.mem_range.mp hj)

theorem sides_eq_rows (hsize : ∀ word ∈ positive ++ negative, word.length = n) :
    positive = (List.range positive.length).map (row n (entry (positive ++ negative))) ∧
      negative = ((List.range negative.length).map (positive.length + ·)).map
        (row n (entry (positive ++ negative))) := by
  have hrows := eq_rows hsize
  rw [List.length_append, List.range_add, List.map_append] at hrows
  exact List.append_inj hrows (by simp)

-- ---------------------------------------------------------------------------
-- Open words
-- ---------------------------------------------------------------------------

theorem modulus_eq (hn : n ≤ Modular.bitsMax) : (Modular.modulus n : Int) = 2 ^ n := by
  simp [Modular.modulus, Nat.min_eq_left hn, Nat.one_shiftLeft]

theorem map_range_getD (is : List Nat) (f : Nat → α) :
    (List.range is.length).map (fun k => f (is.getD k 0)) = is.map f := by
  apply List.ext_getElem
  · simp
  · intro k hk _
    rw [List.length_map, List.length_range] at hk
    simp [hk]

theorem signedTotal_rows (is : List Nat) (σ : Nat → Nat → Pair) :
    ∑ k ∈ Finset.range is.length, ∑ j ∈ Finset.range n, 2 ^ j * (σ (is.getD k 0) j).signed =
      total (is.map fun i => signedDifference (row n σ i)) := by
  rw [← map_range_getD, total_range]
  simp only [row, signedDifference_range]

def opened (words : List (List Condition)) (places : List Nat) : List (List Condition) :=
  places.map (words.getD · [])

section

variable {places : List Nat} {settled : List Settled}

theorem length_opened : (opened words places).length = places.length := by
  simp [opened]

theorem fits_opened : Fits (opened words places) τ ↔
    ∀ k < places.length, ∀ (j : Nat) c,
      (words.getD (places.getD k 0) [])[j]? = some c → c.allows (τ k j) = true := by
  constructor
  · intro h k hk j c hc
    exact h k j (words.getD (places.getD k 0) []) c (by simp [opened, hk]) hc
  · intro h k j word c hword hc
    obtain ⟨hk, rfl⟩ := List.getElem?_eq_some_iff.mp hword
    simp only [opened, List.length_map] at hk
    exact h k hk j c (by simpa [opened, hk] using hc)

theorem Fits.opened (h : Fits words σ) (hplaces : ∀ i ∈ places, i < words.length) :
    Fits (opened words places) fun k => σ (places.getD k 0) := by
  apply fits_opened.mpr
  intro k hk j c hc
  have hlt := hplaces places[k] (List.getElem_mem hk)
  simp only [List.getD_eq_getElem?_getD, List.getElem?_eq_getElem hk, Option.getD_some] at hc ⊢
  exact h places[k] j _ c (List.getElem?_eq_getElem hlt) (by simpa [hlt] using hc)

theorem Solves.congr {constant : Nat} (h : Solves words n constant τ)
    (hsame : ∀ k < words.length, σ k = τ k) : Solves words n constant σ := by
  constructor
  · intro k j word c hword hc
    rw [hsame k (List.getElem?_eq_some_iff.mp hword).1]
    exact h.1 k j word c hword hc
  · have hsum := Finset.sum_congr rfl fun k hk =>
      congrArg (fun f => ∑ j ∈ Finset.range n, 2 ^ j * Pair.signed (f j))
        (hsame k (Finset.mem_range.mp hk))
    rw [hsum]
    exact h.2

theorem difference_map {f : Nat → Bool} {k : Nat} (hk : k < places.length) :
    Relation.difference (places.map f) k = f (places.getD k 0) := by
  simp [Relation.difference, hk]

theorem mem_wordRelations {r : WordRelation} :
    r ∈ wordRelations places settled ↔ ∃ s, settled[r.column]? = some s ∧
      ∃ q ∈ Relation.all s.patterns places.length, places.getD q.first 0 = r.first ∧
        places.getD q.second 0 = r.second ∧ q.value = r.value := by
  simp only [wordRelations, List.mem_flatten, List.mem_map, Prod.exists,
    List.mk_mem_zipIdx_iff_getElem?]
  constructor
  · rintro ⟨_, ⟨s, column, hs, rfl⟩, hr⟩
    obtain ⟨q, hq, rfl⟩ := List.mem_map.mp hr
    exact ⟨s, hs, q, hq, rfl, rfl, rfl⟩
  · rintro ⟨s, hs, q, hq, hfirst, hsecond, hvalue⟩
    refine ⟨_, ⟨s, r.column, hs, rfl⟩, List.mem_map.mpr ⟨q, hq, ?_⟩⟩
    rw [hfirst, hsecond, hvalue]

theorem lt_idxOf {first second : Nat} (hsorted : places.Pairwise (· < ·)) (hfirst : first ∈ places)
    (hsecond : second ∈ places) (hlt : first < second) :
    places.idxOf first < places.idxOf second := by
  by_contra hle
  rcases Nat.lt_or_eq_of_le (Nat.le_of_not_lt hle) with hback | heq
  · have := List.pairwise_iff_getElem.mp hsorted _ _ (List.idxOf_lt_length_of_mem hsecond)
      (List.idxOf_lt_length_of_mem hfirst) hback
    simp at this
    omega
  · have := (List.idxOf_inj hsecond).mp heq
    omega

variable (hopen : openWords? positive negative = some places)
include hopen

theorem mem_places {i : Nat} :
    i ∈ places ↔ i < (positive ++ negative).length ∧
      isGrounded ((positive ++ negative).getD i []) = false := by
  obtain ⟨-, -, rfl⟩ := openWords?_eq_some hopen
  simp

theorem ascending_places : places.Pairwise (· < ·) := by
  obtain ⟨-, -, rfl⟩ := openWords?_eq_some hopen
  exact List.pairwise_lt_range.filter _

theorem places_ne_nil : places ≠ [] := by
  obtain ⟨-, hnot, -⟩ := openWords?_eq_some hopen
  rintro rfl
  have hgrounded : ∀ word ∈ positive ++ negative, isGrounded word = true := by
    intro word hword
    obtain ⟨i, hi, rfl⟩ := List.getElem_of_mem hword
    have hnone := mt (mem_places hopen).mpr (List.not_mem_nil (a := i))
    simpa [List.length_append ▸ hi] using hnone
  apply hnot
  simpa [or_imp, forall_and] using hgrounded

theorem opened_ne_nil : opened (positive ++ negative) places ≠ [] := by
  simpa [opened] using places_ne_nil hopen

theorem propagate_of_none
    (h : settleWords (opened (positive ++ negative) places) (constant positive negative) = none) :
    propagate positive negative = .contradiction := by
  rw [opened] at h
  simp only [propagate, hopen, h]

theorem propagate_of_settled
    (h : settleWords (opened (positive ++ negative) places) (constant positive negative) =
      some settled) :
    propagate positive negative = .refined
      (replace (positive ++ negative) places
        (ofColumns (settled.map (·.conditions)) places.length))
      (wordRelations places settled) := by
  rw [opened] at h
  simp only [propagate, hopen, h, List.length_map]

variable (hsize : ∀ word ∈ positive ++ negative, word.length = n)
include hsize

theorem size_opened : ∀ word ∈ opened (positive ++ negative) places, word.length = n := by
  intro word hword
  obtain ⟨i, hi, rfl⟩ := List.mem_map.mp hword
  have hlt := ((mem_places hopen).mp hi).1
  rw [List.getD_eq_getElem?_getD, List.getElem?_eq_getElem hlt]
  exact hsize _ (List.getElem_mem hlt)

theorem grounded_entry {i j : Nat} (hi : i < (positive ++ negative).length) (hj : j < n)
    (hnot : i ∉ places) : (entry (positive ++ negative) i j).grounded = true := by
  have hword : isGrounded ((positive ++ negative).getD i []) = true := by
    simpa [mem_places hopen, List.length_append ▸ hi] using hnot
  exact List.all_eq_true.mp hword _ (List.mem_of_getElem? (getElem?_entry hsize hi hj))

theorem grounded_exact (hsome : ∃ σ, Balances positive negative n σ) {i j : Nat}
    (hi : i < (positive ++ negative).length) (hj : j < n) (hnot : i ∉ places) (p : Pair) :
    (entry (positive ++ negative) i j).allows p = true ↔
      ∃ σ, Balances positive negative n σ ∧ σ i j = p := by
  have hgrounded := grounded_entry hopen hsize hi hj hnot
  constructor
  · intro hp
    obtain ⟨σ, hσ⟩ := hsome
    have hfits := (fits_iff hsize).mp hσ.1
    let τ (i' j' : Nat) := if i' = i ∧ j' = j then p else σ i' j'
    refine ⟨τ, hσ.exchange ((fits_iff hsize).mpr ?_) ?_, by simp [τ]⟩
    · intro i' hi' j' hj'
      by_cases h : i' = i ∧ j' = j
      · simpa [τ, h] using hp
      · simpa [τ, h] using hfits i' hi' j' hj'
    · intro i' j'
      by_cases h : i' = i ∧ j' = j
      · simpa [τ, h] using Condition.signed_eq_of_grounded hgrounded hp (hfits i hi j hj)
      · simp [τ, h]
  · rintro ⟨σ, hσ, rfl⟩
    exact (fits_iff hsize).mp hσ.1 i hi j hj

theorem mem_places_of_not_constantAt {i j : Nat} (hi : i < (positive ++ negative).length)
    (hj : j < n) (h : ¬ ConstantAt positive negative n i j) : i ∈ places := by
  by_contra hnot
  obtain ⟨⟨σ, hσ, htrue⟩, τ, hτ, hfalse⟩ := not_constantAt_iff.mp h
  have hsigned := Condition.signed_eq_of_grounded (grounded_entry hopen hsize hi hj hnot)
    ((fits_iff hsize).mp hσ.1 i hi j hj) ((fits_iff hsize).mp hτ.1 i hi j hj)
  rw [Pair.differs_eq] at htrue hfalse
  simp [hsigned, hfalse] at htrue

variable (hn : n ≤ Modular.bitsMax)
include hn

/-- A balance is a choice of pairs that solves on the open words what is left of the sum. -/
theorem balances_iff : Balances positive negative n σ ↔ Fits (positive ++ negative) σ ∧
      Solves (opened (positive ++ negative) places) n (constant positive negative)
        fun k => σ (places.getD k 0) := by
  refine and_congr_right fun hfits => ?_
  have hallow := allow_rows hsize hfits
  obtain ⟨hpositive, hnegative⟩ := sides_eq_rows hsize
  -- the words as rows of a table, which the folding of grounded words is about
  generalize entry (positive ++ negative) = conditions at hallow hpositive hnegative
  have hindex : List.range positive.length ++ (List.range negative.length).map
      (positive.length + ·) = List.range (positive ++ negative).length := by
    rw [List.length_append, List.range_add]
  have hopen' := hopen
  rw [hpositive, hnegative] at hopen'
  obtain ⟨hside, hplaces, hne⟩ := openWords?_rows hindex hopen'
  have hfold := dvd_constant_iff (fun h => hne (by rw [hplaces, h]; rfl))
    (fun i hi => hallow i (List.mem_range.mp (hindex ▸ hi))) hside
  rw [← hplaces, ← hpositive, ← hnegative, modulus_eq hn] at hfold
  have hsides : ∑ i ∈ Finset.range positive.length, ∑ j ∈ Finset.range n, 2 ^ j * (σ i j).signed
      ≡ ∑ i ∈ Finset.range negative.length, ∑ j ∈ Finset.range n,
          2 ^ j * (σ (positive.length + i) j).signed [ZMOD 2 ^ n] ↔ _ :=
    Int.modEq_comm.trans Int.modEq_iff_dvd
  have hsolves : Solves (opened (positive ++ negative) places) n (constant positive negative)
      (fun k => σ (places.getD k 0)) ↔ (2 ^ n : Int) ∣
        total (places.map fun i => signedDifference (row n σ i)) - constant positive negative := by
    rw [← signedTotal_rows, ← Int.modEq_iff_dvd, Int.modEq_comm, Solves, length_opened]
    exact and_iff_right (hfits.opened fun i hi => ((mem_places hopen).mp hi).1)
  rw [hsides, hsolves, hfold]
  simp only [List.map_map, total_range, row, signedDifference_range, Function.comp_def]

/-- What solves the rest of the sum on the open words is part of a balance. -/
theorem exists_balances
    (h : Solves (opened (positive ++ negative) places) n (constant positive negative) τ) :
    ∃ σ, Balances positive negative n σ ∧ ∀ k < places.length, σ (places.getD k 0) = τ k := by
  have hpair (i j : Nat) : ∃ p, (entry (positive ++ negative) i j).grounded = true →
      (entry (positive ++ negative) i j).allows p = true := by
    by_cases hg : (entry (positive ++ negative) i j).grounded = true
    · obtain ⟨p, hp⟩ := Condition.exists_of_grounded hg
      exact ⟨p, fun _ => hp⟩
    · exact ⟨⟨false, false⟩, fun hg' => absurd hg' hg⟩
  choose fill hfill using hpair
  have hnodup : places.Nodup := (ascending_places hopen).imp Nat.ne_of_lt
  let σ (i : Nat) := if i ∈ places then τ (places.idxOf i) else fill i
  have hopened : ∀ k < places.length, σ (places.getD k 0) = τ k := by
    intro k hk
    simp [σ, hk, hnodup.idxOf_getElem]
  refine ⟨σ, (balances_iff hopen hsize hn).mpr ⟨?_, ?_⟩, hopened⟩
  · apply (fits_iff hsize).mpr
    intro i hi j hj
    by_cases hmem : i ∈ places
    · have hk := List.idxOf_lt_length_of_mem hmem
      have hget : places.getD (places.idxOf i) 0 = i := by simp [hk]
      have hallows := fits_opened.mp h.1 _ hk j _ (by
        rw [hget]
        exact getElem?_entry hsize hi hj)
      simpa [σ, hmem] using hallows
    · simpa [σ, hmem] using hfill i j (grounded_entry hopen hsize hi hj hmem)
  · exact h.congr fun k hk => hopened k (length_opened ▸ hk)

theorem exists_solves_iff {P : (Nat → Nat → Pair) → Prop}
    (hP : ∀ σ τ, (∀ k < places.length, σ k = τ k) → P σ → P τ) :
    (∃ τ, Solves (opened (positive ++ negative) places) n (constant positive negative) τ ∧ P τ) ↔
      ∃ σ, Balances positive negative n σ ∧ P fun k => σ (places.getD k 0) := by
  constructor
  · rintro ⟨τ, hτ, h⟩
    obtain ⟨σ, hσ, hsame⟩ := exists_balances hopen hsize hn hτ
    exact ⟨σ, hσ, hP τ _ (fun k hk => (hsame k hk).symm) h⟩
  · rintro ⟨σ, hσ, h⟩
    exact ⟨_, ((balances_iff hopen hsize hn).mp hσ).2, h⟩

-- ---------------------------------------------------------------------------
-- Refined words
-- ---------------------------------------------------------------------------

theorem settle_opened_eq_none :
    settleWords (opened (positive ++ negative) places) (constant positive negative) = none ↔
      ¬ ∃ σ, Balances positive negative n σ := by
  have hsolves := exists_solves_iff hopen hsize hn (P := fun _ => True) (by simp)
  rw [settleWords_eq_none (opened_ne_nil hopen) (size_opened hopen hsize)]
  simpa using not_congr hsolves

section

variable (h : settleWords (opened (positive ++ negative) places) (constant positive negative) =
  some settled)
include h

theorem exists_balances_of_settled : ∃ σ, Balances positive negative n σ := by
  by_contra hnone
  cases h.symm.trans ((settle_opened_eq_none hopen hsize hn).mpr hnone)

/-- Each bit of a refined word allows just the pairs that some balance has there. -/
theorem exact_replace :
    ∀ i < (positive ++ negative).length, ∃ word,
      (replace (positive ++ negative) places
        (ofColumns (settled.map (·.conditions)) places.length))[i]? = some word ∧
      word.length = n ∧ ∀ (j : Nat) c, word[j]? = some c → ∀ p,
        c.allows p = true ↔ ∃ σ, Balances positive negative n σ ∧ σ i j = p := by
  have hsome := exists_balances_of_settled hopen hsize hn h
  apply forall_replace
  · intro i hi
    refine ⟨_, List.getElem?_eq_getElem hi, ?_⟩
    intro hnot
    refine ⟨hsize _ (List.getElem_mem hi), ?_⟩
    intro j c hc
    obtain ⟨hj, rfl⟩ := List.getElem?_eq_some_iff.mp hc
    have hj' : j < n := by simpa [hsize _ (List.getElem_mem hi)] using hj
    rw [getElem_eq_entry]
    exact grounded_exact hopen hsize hsome hi hj' hnot
  · apply List.forall₂_iff_get.mpr
    refine ⟨by simp [ofColumns], ?_⟩
    intro k hk hk'
    generalize hget : List.get _ ⟨k, hk'⟩ = word
    have hword : (ofColumns (settled.map (·.conditions))
        (opened (positive ++ negative) places).length)[k]? = some word := by
      rw [length_opened, ← hget]
      exact List.getElem?_eq_getElem hk'
    obtain ⟨hlength, hbits⟩ :=
      exact_ofColumns (opened_ne_nil hopen) (size_opened hopen hsize) h hword
    refine ⟨hlength, ?_⟩
    intro j c hc p
    have hsolves := exists_solves_iff hopen hsize hn (P := fun τ => τ k j = p)
      fun σ τ hsame hp => by rw [← hsame k hk, hp]
    rw [hbits j c hc p, hsolves]
    simp [hk]

-- ---------------------------------------------------------------------------
-- Relations
-- ---------------------------------------------------------------------------

/-- The patterns of a settled column are the differences that balances have there. -/
theorem mem_patterns_iff {j : Nat} {s : Settled} (hs : settled[j]? = some s) (pattern : List Bool) :
    pattern ∈ s.patterns ↔
      ∃ σ, Balances positive negative n σ ∧ places.map (fun i => (σ i j).differs) = pattern := by
  have hexact := (exact_settleWords (opened_ne_nil hopen) (size_opened hopen hsize) h).2 j s hs
  have hsolves := exists_solves_iff hopen hsize hn
    (P := fun τ => (List.range places.length).map (fun k => (τ k j).differs) = pattern)
    fun σ τ hsame hp => by
      rw [← hp]
      exact List.map_congr_left fun k hk => by rw [hsame k (List.mem_range.mp hk)]
  rw [hexact.patterns, length_opened]
  simp only [exists_exists_and_eq_and, List.map_map, Function.comp_def, hsolves]
  refine exists_congr fun σ => and_congr_right fun _ => ?_
  rw [map_range_getD places fun i => (σ i j).differs]

theorem mem_all_patterns_iff {j : Nat} {s : Settled} (hs : settled[j]? = some s) (q : Relation) :
    q ∈ Relation.all s.patterns places.length ↔
      q.first < q.second ∧ q.second < places.length ∧
      ¬ ConstantAt positive negative n (places.getD q.first 0) j ∧
      ¬ ConstantAt positive negative n (places.getD q.second 0) j ∧
      ∀ σ, Balances positive negative n σ →
        ((σ (places.getD q.first 0) j).differs ^^ (σ (places.getD q.second 0) j).differs) =
          q.value := by
  have hpatterns := mem_patterns_iff hopen hsize hn h hs
  obtain ⟨σ, hσ⟩ := exists_balances_of_settled hopen hsize hn h
  have hne : s.patterns ≠ [] := List.ne_nil_of_mem ((hpatterns _).mpr ⟨σ, hσ, rfl⟩)
  rw [Relation.mem_all_iff hne]
  refine and_congr_right fun hlt => and_congr_right fun hbound => ?_
  have hfree (k : Nat) (hk : k < places.length) : Relation.isFree s.patterns k = true ↔
      ¬ ConstantAt positive negative n (places.getD k 0) j := by
    simp [Relation.isFree_iff, not_constantAt_iff, hpatterns, difference_map hk]
  have hfirst := Nat.lt_trans hlt hbound
  rw [hfree q.first hfirst, hfree q.second hbound]
  refine and_congr_right fun _ => and_congr_right fun _ => ?_
  constructor
  · intro hsum σ hσ
    have hpattern := hsum _ ((hpatterns _).mpr ⟨σ, hσ, rfl⟩)
    rwa [difference_map hfirst, difference_map hbound] at hpattern
  · intro hsum pattern hpattern
    obtain ⟨σ, hσ, rfl⟩ := (hpatterns pattern).mp hpattern
    rw [difference_map hfirst, difference_map hbound]
    exact hsum σ hσ

theorem mem_wordRelations_iff {r : WordRelation} :
    r ∈ wordRelations places settled ↔
      r.first < r.second ∧ r.second < (positive ++ negative).length ∧ r.column < n ∧
      (∀ σ, Balances positive negative n σ →
        ((σ r.first r.column).differs ^^ (σ r.second r.column).differs) = r.value) ∧
      ¬ ConstantAt positive negative n r.first r.column ∧
      ¬ ConstantAt positive negative n r.second r.column := by
  have hlength := (exact_settleWords (opened_ne_nil hopen) (size_opened hopen hsize) h).1
  have hsorted := ascending_places hopen
  rw [mem_wordRelations]
  constructor
  · rintro ⟨s, hs, q, hq, hfirst, hsecond, hvalue⟩
    obtain ⟨hlt, hbound, hfree, hfree', hsum⟩ :=
      (mem_all_patterns_iff hopen hsize hn h hs q).mp hq
    rw [hfirst] at hfree hsum
    rw [hsecond] at hfree' hsum
    rw [hvalue] at hsum
    have hplace (k : Nat) (hk : k < places.length) : places.getD k 0 = places[k] := by
      simp [hk]
    refine ⟨?_, ?_, hlength ▸ (List.getElem?_eq_some_iff.mp hs).1, hsum, hfree, hfree'⟩
    · rw [← hfirst, ← hsecond, hplace _ (Nat.lt_trans hlt hbound), hplace _ hbound]
      exact List.pairwise_iff_getElem.mp hsorted _ _ _ _ hlt
    · rw [← hsecond, hplace _ hbound]
      exact ((mem_places hopen).mp (List.getElem_mem hbound)).1
  · rintro ⟨hlt, hbound, hcolumn, hsum, hfree, hfree'⟩
    have hfirst := mem_places_of_not_constantAt hopen hsize (Nat.lt_trans hlt hbound) hcolumn hfree
    have hsecond := mem_places_of_not_constantAt hopen hsize hbound hcolumn hfree'
    have hplace {i : Nat} (hi : i ∈ places) : places.getD (places.idxOf i) 0 = i := by
      simp [List.idxOf_lt_length_of_mem hi]
    have hs := List.getElem?_eq_getElem (hlength ▸ hcolumn)
    refine ⟨_, hs, ⟨places.idxOf r.first, places.idxOf r.second, r.value⟩, ?_, hplace hfirst,
      hplace hsecond, rfl⟩
    apply (mem_all_patterns_iff hopen hsize hn h hs _).mpr
    rw [hplace hfirst, hplace hsecond]
    exact ⟨lt_idxOf hsorted hfirst hsecond hlt, List.idxOf_lt_length_of_mem hsecond, hfree, hfree',
      hsum⟩

end

-- ---------------------------------------------------------------------------
-- Answers
-- ---------------------------------------------------------------------------

/-- What the answer to a sum has to say, where it says something. -/
structure Derivation.Exact (d : Derivation) (positive negative : List (List Condition)) (n : Nat) :
    Prop where
  contradiction : d = .contradiction ↔ ¬ ∃ σ, Balances positive negative n σ
  refined : d ≠ .contradiction → ∃ words relations, d = .refined words relations ∧
    words.length = positive.length + negative.length ∧
    (∀ (i : Nat) word, words[i]? = some word → word.length = n ∧
      ∀ (j : Nat) c, word[j]? = some c → ∀ p,
        c.allows p = true ↔ ∃ σ, Balances positive negative n σ ∧ σ i j = p) ∧
    ∀ r, r ∈ relations ↔
      r.first < r.second ∧ r.second < positive.length + negative.length ∧ r.column < n ∧
      (∀ σ, Balances positive negative n σ →
        ((σ r.first r.column).differs ^^ (σ r.second r.column).differs) = r.value) ∧
      ¬ ConstantAt positive negative n r.first r.column ∧
      ¬ ConstantAt positive negative n r.second r.column

theorem exact_propagate : (propagate positive negative).Exact positive negative n := by
  cases h : settleWords (opened (positive ++ negative) places) (constant positive negative) with
  | none =>
    rw [propagate_of_none hopen h]
    refine ⟨?_, fun hne => absurd rfl hne⟩
    simpa using (settle_opened_eq_none hopen hsize hn).mp h
  | some settled =>
    rw [propagate_of_settled hopen h]
    have hlength := length_replace (positive ++ negative)
      (ofColumns (settled.map (·.conditions)) places.length) places
    constructor
    · simpa using exists_balances_of_settled hopen hsize hn h
    · intro _
      refine ⟨_, _, rfl, by simp [hlength], ?_, ?_⟩
      · intro i word hword
        have hi := hlength ▸ (List.getElem?_eq_some_iff.mp hword).1
        obtain ⟨word', hword', hexact⟩ := exact_replace hopen hsize hn h i hi
        obtain rfl := Option.some.inj (hword.symm.trans hword')
        exact hexact
      · intro r
        simpa using mem_wordRelations_iff hopen hsize hn h

end

/-- A sum of words of one size that says something is contradictory just if it has no balance.
Otherwise each bit of each word allows just the pairs that some balance has there, and related
are just the differences of which all balances agree on the sum and on neither of them. So a pair
of instances stays allowed in which the sum holds. -/
theorem checked_balanced {positive negative : List (List Condition)} {n : Nat}
    (hsize : ∀ word ∈ positive ++ negative, word.length = n) (hn : n ≤ Modular.bitsMax) :
    ∃ d, checked positive negative = .ok d ∧ (d ≠ .skipped → d.Exact positive negative n ∧
      ∀ σ, Fits (positive ++ negative) σ →
        SumHolds positive.length negative.length n (fun i j => (σ i j).first) →
        SumHolds positive.length negative.length n (fun i j => (σ i j).second) →
        ∃ words relations, d = .refined words relations ∧ Fits words σ) := by
  cases hopen : openWords? positive negative with
  | none => exact ⟨.skipped, by simp [checked, hopen], fun h => absurd rfl h⟩
  | some places =>
    have hchecked : checked positive negative = .ok (propagate positive negative) := by
      have hsame := sameSize_of_length (size_opened hopen hsize)
      rw [opened] at hsame
      simp only [checked, hopen, hsame, if_true]
    refine ⟨_, hchecked, fun _ => ?_⟩
    have hexact := exact_propagate hopen hsize hn
    refine ⟨hexact, ?_⟩
    intro σ hfits hfirst hsecond
    have hσ := balances_of_instances hfits hfirst hsecond
    have hne : propagate positive negative ≠ .contradiction :=
      mt hexact.contradiction.mp (not_not_intro ⟨σ, hσ⟩)
    obtain ⟨words, relations, hrefined, -, hwords, -⟩ := hexact.refined hne
    refine ⟨words, relations, hrefined, ?_⟩
    intro i j word c hword hc
    exact ((hwords i word hword).2 j c hc (σ i j)).mpr ⟨σ, hσ, rfl⟩

/-- Two open words whose lowest bits have to differ in one of them, from the least significant
bit on. -/
theorem checked_balanced_two_open :
    let positive := [[Condition.any, .x], [.any, .same]]
    let negative := [[Condition.u, .same]]
    let refined := [[⟨13⟩, .x], [⟨13⟩, .same], [.u, .same]]
    let pairs : List (List Pair) := [[⟨false, true⟩, ⟨true, false⟩], [⟨true, true⟩, ⟨true, true⟩],
      [⟨true, false⟩, ⟨false, false⟩]]
    checked positive negative = .ok (.refined refined [⟨0, 1, 0, true⟩]) ∧
      (∀ σ, Balances positive negative 2 σ → ((σ 0 0).differs ^^ (σ 1 0).differs) = true) ∧
      Fits refined fun i j => (pairs.getD i []).getD j ⟨false, false⟩ := by
  intro positive negative refined pairs
  have hsize : ∀ word ∈ positive ++ negative, word.length = 2 := by decide
  have hrun : checked positive negative = .ok (.refined refined [⟨0, 1, 0, true⟩]) := by
    decide +kernel
  obtain ⟨d, hd, hall⟩ := checked_balanced hsize (by decide)
  obtain rfl := Except.ok.inj (hrun.symm.trans hd)
  obtain ⟨hexact, hinstances⟩ := hall nofun
  refine ⟨hrun, ?_, ?_⟩
  · obtain ⟨_, _, hrefined, -, -, hrelations⟩ := hexact.refined nofun
    obtain ⟨rfl, rfl⟩ := Derivation.refined.inj hrefined
    exact ((hrelations ⟨0, 1, 0, true⟩).mp (List.mem_singleton_self _)).2.2.2.1
  · obtain ⟨_, _, hrefined, hfits⟩ := hinstances
      (fun i j => (pairs.getD i []).getD j ⟨false, false⟩) ((fits_iff hsize).mpr (by decide))
      (by unfold SumHolds; decide) (by unfold SumHolds; decide)
    obtain ⟨rfl, rfl⟩ := Derivation.refined.inj hrefined
    exact hfits

end Sum

end ShaDiff
