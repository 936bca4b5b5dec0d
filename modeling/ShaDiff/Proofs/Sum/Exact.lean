import Mathlib.Algebra.BigOperators.Ring.Finset
import Mathlib.Data.Int.ModEq
import ShaDiff.Proofs.Column.Free
import ShaDiff.Proofs.Sum.Derivation

/-!
# Words are derived exactly

A path of carries through all columns is a choice of pairs whose signed differences sum to
the constant. Settled columns hold just what such paths use (`exact_settle`): a way that is
kept starts some path, as the pairs that contribute to it can be chosen among those of the
column, one of them freely. So the words derived from words of one size allow a pair at a bit
just where some solution of the sum has it there (`deriveChecked_exact`).
-/

namespace ShaDiff

theorem Condition.exists_of_mem_signedDifferences {c : Condition} {d : Int}
    (h : d ∈ c.signedDifferences) : ∃ p, c.allows p = true ∧ p.signed = d := by
  have key : ∀ m : BitVec 4, ∀ d ∈ (Condition.mk m).signedDifferences,
      ∃ p ∈ Pair.all, (Condition.mk m).allows p = true ∧ p.signed = d := by decide
  obtain ⟨p, -, hp⟩ := key c.mask d h
  exact ⟨p, hp⟩

theorem Condition.allows_ofSigned_iff (p q : Pair) :
    (ofSigned q.signed).allows p = true ↔ p.signed = q.signed := by
  have key : ∀ p ∈ Pair.all, ∀ q ∈ Pair.all,
      (ofSigned q.signed).allows p = true ↔ p.signed = q.signed := by decide
  exact key p p.mem_all q q.mem_all

namespace Sum

open Condition (Allow)

variable {column : List Condition} {columns : List (List Condition)} {ps : List Pair}
  {pss : List (List Pair)} {constant : Nat} {target : Bool} {carry : Int}
  {carries alive : List Int} {settled : List Settled} {way : Way} {ws : List Way}

-- ---------------------------------------------------------------------------
-- Paths
-- ---------------------------------------------------------------------------

theorem dvd_of_path (h : Path pss constant carry) :
    ((1 <<< pss.length : Nat) : Int) ∣ carry + signedTotal pss - constant := by
  induction h with
  | nil => exact ⟨_, by simp [signedTotal]; rfl⟩
  | @cons ps constant carry out pss hout _ ih =>
    obtain ⟨k, hk⟩ := ih
    simp only [carryOut?, Option.ite_none_right_eq_some, Option.some.injEq] at hout
    obtain ⟨heven, rfl⟩ := hout
    have htarget : (constant : Int) = 2 * (constant / 2 : Nat) + (constant % 2 == 1).toInt := by
      rcases Nat.mod_two_eq_zero_or_one constant with h | h <;> simp [h] <;> omega
    refine ⟨k, ?_⟩
    rw [List.length_cons, Nat.shiftLeft_succ, signedTotal, Int.natCast_mul, Int.mul_assoc, ← hk]
    omega

/-- Whether pairs that all columns allow take one of the carries through them. -/
def Crosses (columns : List (List Condition)) (constant : Nat) (carries : List Int)
    (pss : List (List Pair)) : Prop :=
  List.Forall₂ Allow columns pss ∧ ∃ carry ∈ carries, Path pss constant carry

theorem mem_ways_of_allow (h : Allow column ps) {out : Int} (hcarry : carry ∈ carries)
    (hout : carryOut? carry (ps.map (·.signed)) target = some out) :
    ⟨carry, ps.map (·.signed), out⟩ ∈ ways column target carries := by
  refine mem_ways.mpr ⟨hcarry, ?_, hout⟩
  rw [mem_selections, List.forall₂_map_left_iff, List.forall₂_map_right_iff]
  exact h.flip.imp fun _ _ hp => Condition.signed_mem hp

theorem exists_of_way (h : way ∈ ways column target carries) :
    ∃ ps, Allow column ps ∧ way.contributions = ps.map (·.signed) := by
  have hcontributions := mem_selections.mp (mem_ways.mp h).2.1
  rw [List.forall₂_map_right_iff] at hcontributions
  clear h
  generalize way.contributions = ds at hcontributions ⊢
  induction hcontributions with
  | nil => exact ⟨[], .nil, rfl⟩
  | cons hd _ ih =>
    obtain ⟨p, hp, rfl⟩ := Condition.exists_of_mem_signedDifferences hd
    obtain ⟨ps, hps, rfl⟩ := ih
    exact ⟨p :: ps, .cons hp hps, rfl⟩

def Takes (column : List Condition) (ws : List Way) (ps : List Pair) : Prop :=
  Allow column ps ∧ ∃ way ∈ ws, way.contributions = ps.map (·.signed)

theorem length_restrict {contributions : List (List Int)}
    (hl : ∀ ds ∈ contributions, ds.length = column.length) :
    (restrict column contributions).length = column.length := by
  rw [restrict, List.length_zipWith, Condition.length_foldl List.length_replicate hl, Nat.min_self]

/-- A pair is left where the pairs of a way can be chosen to have it. -/
theorem allows_ofWays (hsub : ws ⊆ ways column target carries) {i : Nat} {c : Condition}
    (hc : (Settled.ofWays column ws).conditions[i]? = some c) (p : Pair) :
    c.allows p = true ↔ ∃ ps, Takes column ws ps ∧ ps[i]? = some p := by
  obtain ⟨b, u, hb, hu, rfl⟩ := List.getElem?_zipWith_eq_some.mp hc
  obtain ⟨hi, -⟩ := List.getElem?_eq_some_iff.mp hb
  have hlength : ∀ ds ∈ ws.map (·.contributions), i < ds.length := by
    rintro _ hds
    obtain ⟨way, hway, rfl⟩ := List.mem_map.mp hds
    rwa [length_contributions (hsub hway)]
  have hstart : (List.replicate column.length Condition.never)[i]? = some .never := by simp [hi]
  obtain ⟨u', hu', hallows⟩ := Condition.exists_getElem?_foldl (g := .ofSigned) hlength hstart
  obtain rfl := Option.some.inj (hu.symm.trans hu')
  rw [Condition.allows_inter, Bool.and_eq_true, hallows, Condition.allows_never,
    or_iff_right Bool.false_ne_true]
  constructor
  · rintro ⟨hp, ds, hds, d, hd, hallowed⟩
    obtain ⟨way, hway, rfl⟩ := List.mem_map.mp hds
    obtain ⟨ps, hps, hsigned⟩ := exists_of_way (hsub hway)
    rw [hsigned, List.getElem?_map, Option.map_eq_some_iff] at hd
    obtain ⟨q, hq, rfl⟩ := hd
    -- The pair may stand for the one that was chosen, as its signed difference is the same.
    refine ⟨ps.set i p, ⟨hps.set hb hp, way, hway, ?_⟩, ?_⟩
    · obtain ⟨hlt, rfl⟩ := List.getElem?_eq_some_iff.mp hq
      have hsame := (Condition.allows_ofSigned_iff p ps[i]).mp hallowed
      rw [hsigned, List.map_set, hsame, ← List.map_set, List.set_getElem_self]
    · exact List.getElem?_set_self (hps.length_eq ▸ hi)
  · rintro ⟨ps, ⟨hps, way, hway, hsigned⟩, hp⟩
    refine ⟨hps.allows_of_getElem? hb hp, _, List.mem_map_of_mem hway, p.signed, ?_,
      Condition.allows_ofSigned p⟩
    rw [hsigned, List.getElem?_map, hp]
    rfl

theorem mem_patterns_ofWays (hsub : ws ⊆ ways column target carries) {pattern : List Bool} :
    pattern ∈ (Settled.ofWays column ws).patterns ↔
      ∃ ps, Takes column ws ps ∧ ps.map (·.differs) = pattern := by
  have hdiffers (ps : List Pair) : (ps.map (·.signed)).map (· != 0) = ps.map (·.differs) := by
    rw [List.map_map]
    exact List.map_congr_left fun p _ => p.differs_eq.symm
  simp only [Settled.ofWays, List.map_map, List.mem_map, Function.comp_apply]
  constructor
  · rintro ⟨way, hway, rfl⟩
    obtain ⟨ps, hps, hsigned⟩ := exists_of_way (hsub hway)
    exact ⟨ps, ⟨hps, way, hway, hsigned⟩, by rw [hsigned, hdiffers]⟩
  · rintro ⟨ps, ⟨-, way, hway, hsigned⟩, rfl⟩
    exact ⟨way, hway, by rw [hsigned, hdiffers]⟩

-- ---------------------------------------------------------------------------
-- Settled columns
-- ---------------------------------------------------------------------------

theorem crosses_cons : Crosses (column :: columns) constant carries (ps :: pss) ↔
    Allow column ps ∧ ∃ way ∈ ways column (constant % 2 == 1) carries,
      way.contributions = ps.map (·.signed) ∧ Crosses columns (constant / 2) [way.leaves] pss := by
  constructor
  · rintro ⟨_ | ⟨hps, hpss⟩, carry, hcarry, _ | ⟨hout, hpath⟩⟩
    exact ⟨hps, _, mem_ways_of_allow hps hcarry hout, rfl, hpss, _, List.mem_singleton_self _, hpath⟩
  · rintro ⟨hps, way, hway, hsigned, hpss, _, hleaves, hpath⟩
    obtain rfl := List.mem_singleton.mp hleaves
    obtain ⟨hcarry, -, hout⟩ := mem_ways.mp hway
    exact ⟨.cons hps hpss, _, hcarry, .cons (hsigned ▸ hout) hpath⟩

theorem not_crosses_nil : ¬ Crosses (column :: columns) constant carries [] := by
  rintro ⟨h, -⟩
  cases h

theorem Crosses.mono {carries' : List Int} (h : Crosses columns constant carries pss)
    (hsub : carries ⊆ carries') : Crosses columns constant carries' pss := by
  obtain ⟨hpss, carry, hcarry, hpath⟩ := h
  exact ⟨hpss, carry, hsub hcarry, hpath⟩

theorem Crosses.exists_carry (h : Crosses columns constant carries pss) :
    ∃ carry ∈ carries, Crosses columns constant [carry] pss := by
  obtain ⟨hpss, carry, hcarry, hpath⟩ := h
  exact ⟨carry, hcarry, hpss, carry, List.mem_singleton_self _, hpath⟩

/-- Whether a settled column has just what is used there. -/
structure Settled.Exact (s : Settled) (column : List Condition) (Uses : List Pair → Prop) :
    Prop where
  length : s.conditions.length = column.length
  allows : ∀ {i : Nat} {c : Condition}, s.conditions[i]? = some c → ∀ p,
    c.allows p = true ↔ ∃ ps, Uses ps ∧ ps[i]? = some p
  patterns : ∀ pattern, pattern ∈ s.patterns ↔ ∃ ps, Uses ps ∧ ps.map (·.differs) = pattern

theorem exact_ofWays (hsub : ws ⊆ ways column target carries) :
    (Settled.ofWays column ws).Exact column (Takes column ws) where
  length := length_restrict fun ds hds => by
    obtain ⟨way, hway, rfl⟩ := List.mem_map.mp hds
    exact length_contributions (hsub hway)
  allows hc := allows_ofWays hsub hc
  patterns _ := mem_patterns_ofWays hsub

theorem Settled.Exact.congr {s : Settled} {Uses Uses' : List Pair → Prop}
    (h : s.Exact column Uses) (huses : ∀ ps, Uses ps ↔ Uses' ps) : s.Exact column Uses' := by
  obtain rfl : Uses = Uses' := funext fun ps => propext (huses ps)
  exact h

/-- The pairs that are used at a column by some pairs through all columns. -/
def UsedAt (columns : List (List Condition)) (constant : Nat) (carries : List Int) (k : Nat)
    (ps : List Pair) : Prop :=
  ∃ pss, Crosses columns constant carries pss ∧ pss[k]? = some ps

theorem usedAt_zero : UsedAt (column :: columns) constant carries 0 ps ↔
    ∃ way ∈ ways column (constant % 2 == 1) carries, Allow column ps ∧
      way.contributions = ps.map (·.signed) ∧
        ∃ pss, Crosses columns (constant / 2) [way.leaves] pss := by
  constructor
  · rintro ⟨_ | ⟨qs, pss⟩, hpss, hps⟩
    · cases hps
    obtain rfl := Option.some.inj hps
    obtain ⟨hallow, way, hway, hsigned, hpss⟩ := crosses_cons.mp hpss
    exact ⟨way, hway, hallow, hsigned, pss, hpss⟩
  · rintro ⟨way, hway, hallow, hsigned, pss, hpss⟩
    exact ⟨ps :: pss, crosses_cons.mpr ⟨hallow, way, hway, hsigned, hpss⟩, rfl⟩

theorem usedAt_succ {k : Nat} : UsedAt (column :: columns) constant carries (k + 1) ps ↔
    UsedAt columns (constant / 2) (leaving (ways column (constant % 2 == 1) carries)) k ps := by
  constructor
  · rintro ⟨_ | ⟨qs, pss⟩, hpss, hps⟩
    · cases hps
    obtain ⟨-, way, hway, -, hpss⟩ := crosses_cons.mp hpss
    refine ⟨pss, hpss.mono fun carry hcarry => ?_, hps⟩
    obtain rfl := List.mem_singleton.mp hcarry
    exact mem_leaving.mpr ⟨way, hway, rfl⟩
  · rintro ⟨pss, hpss, hps⟩
    obtain ⟨_, hleaves, hpss⟩ := hpss.exists_carry
    obtain ⟨way, hway, rfl⟩ := mem_leaving.mp hleaves
    obtain ⟨qs, hqs, hsigned⟩ := exists_of_way hway
    exact ⟨qs :: pss, crosses_cons.mpr ⟨hqs, way, hway, hsigned, hpss⟩, hps⟩

/-- Carries are kept that can be continued, and settled columns have just what is used. -/
theorem exact_settle (h : settle columns constant carries = some (alive, settled)) :
    (∀ carry, carry ∈ alive ↔ carry ∈ carries ∧ ∃ pss, Crosses columns constant [carry] pss) ∧
      settled.length = columns.length ∧
      ∀ (k : Nat) s column, settled[k]? = some s → columns[k]? = some column →
        s.Exact column (UsedAt columns constant carries k) := by
  induction columns generalizing constant carries alive settled with
  | nil =>
    obtain ⟨rfl, rfl⟩ := Prod.mk.inj (Option.some.inj h)
    refine ⟨fun carry => ?_, rfl, fun k s _ hs => by cases hs⟩
    exact ⟨fun hcarry => ⟨hcarry, [], .nil, carry, List.mem_singleton_self _, .nil⟩, And.left⟩
  | cons column columns ih =>
    obtain ⟨ws, rfl, -, alive', settled', hrest, rfl, rfl⟩ := settle_cons h
    obtain ⟨halive, hlength, hexact⟩ := ih hrest
    have hkeep (way : Way) : way ∈ keep (ways column (constant % 2 == 1) carries) alive' ↔
        way ∈ ways column (constant % 2 == 1) carries ∧
          ∃ pss, Crosses columns (constant / 2) [way.leaves] pss := by
      rw [mem_keep, halive]
      refine and_congr_right fun hway => and_iff_right (mem_leaving.mpr ⟨way, hway, rfl⟩)
    refine ⟨fun carry => ?_, congrArg (· + 1) hlength, fun k s c hs hc => ?_⟩
    · constructor
      · rintro hcarry
        obtain ⟨way, hway, rfl⟩ := mem_entering.mp hcarry
        obtain ⟨hway, pss, hpss⟩ := (hkeep way).mp hway
        obtain ⟨hcarry, hcontributions, hout⟩ := mem_ways.mp hway
        obtain ⟨ps, hps, hsigned⟩ := exists_of_way hway
        have halone := mem_ways.mpr ⟨List.mem_singleton_self _, hcontributions, hout⟩
        exact ⟨hcarry, ps :: pss, crosses_cons.mpr ⟨hps, way, halone, hsigned, hpss⟩⟩
      · rintro ⟨hcarry, _ | ⟨ps, pss⟩, hpss⟩
        · exact absurd hpss not_crosses_nil
        obtain ⟨-, way, hway, -, habove⟩ := crosses_cons.mp hpss
        obtain ⟨henters, hcontributions, hout⟩ := mem_ways.mp hway
        obtain rfl := List.mem_singleton.mp henters
        refine mem_entering.mpr ⟨way, (hkeep way).mpr ⟨?_, pss, habove⟩, rfl⟩
        exact mem_ways.mpr ⟨hcarry, hcontributions, hout⟩
    · cases k with
      | zero =>
        obtain rfl := Option.some.inj hs
        obtain rfl := Option.some.inj hc
        refine (exact_ofWays fun way hway => (mem_keep.mp hway).1).congr fun ps => ?_
        simp only [Takes, hkeep, usedAt_zero]
        tauto
      | succ k => exact (hexact k s c hs hc).congr fun ps => usedAt_succ.symm

theorem settle_eq_none (hne : carries ≠ []) : settle columns constant carries = none ↔
    ¬ ∃ pss, Crosses columns constant carries pss := by
  constructor
  · rintro h ⟨pss, hpss, carry, hcarry, hpath⟩
    obtain ⟨_, _, hsettle, -⟩ := settle_sound hpss hpath hcarry
    cases h.symm.trans hsettle
  · intro hnone
    by_contra hsettle
    obtain ⟨⟨alive, settled⟩, hsettle⟩ := Option.ne_none_iff_exists'.mp hsettle
    obtain ⟨carry, hcarry⟩ := List.exists_mem_of_ne_nil _ (settle_alive hsettle hne).1
    obtain ⟨hcarry, pss, hpss⟩ := ((exact_settle hsettle).1 carry).mp hcarry
    refine hnone ⟨pss, hpss.mono fun _ h => ?_⟩
    rwa [List.mem_singleton.mp h]

-- ---------------------------------------------------------------------------
-- Words
-- ---------------------------------------------------------------------------

section

variable {words : List (List Condition)} {n : Nat} {σ : Nat → Nat → Pair}

/-- Whether pairs that words allow, bit by bit, have signed differences that sum to the
constant, modulo two to the number of bits. -/
def Solves (words : List (List Condition)) (n constant : Nat) (σ : Nat → Nat → Pair) : Prop :=
  (∀ (i j : Nat) word c, words[i]? = some word → word[j]? = some c → c.allows (σ i j) = true) ∧
    ∑ i ∈ Finset.range words.length, ∑ j ∈ Finset.range n, 2 ^ j * (σ i j).signed
      ≡ constant [ZMOD 2 ^ n]

theorem total_range (f : Nat → Int) (m : Nat) :
    total ((List.range m).map f) = ∑ i ∈ Finset.range m, f i := by
  induction m with
  | zero => rfl
  | succ m ih => simp [List.range_succ, total_append, ih, Finset.sum_range_succ, total]

theorem signedDifference_range (f : Nat → Pair) (n : Nat) :
    signedDifference ((List.range n).map f) = ∑ j ∈ Finset.range n, 2 ^ j * (f j).signed := by
  induction n generalizing f with
  | zero => rfl
  | succ n ih =>
    rw [List.range_succ_eq_map, List.map_cons, List.map_map, signedDifference,
      show f ∘ Nat.succ = fun j => f (j + 1) from rfl, ih, Finset.sum_range_succ', Finset.mul_sum]
    simp only [pow_succ', mul_assoc, pow_zero, one_mul, add_comm]

def columnPairs (m n : Nat) (σ : Nat → Nat → Pair) : List (List Pair) :=
  (List.range n).map fun j => (List.range m).map (σ · j)

theorem allow_columns (hsize : ∀ word ∈ words, word.length = n) :
    List.Forall₂ Allow (Sum.columns words n) (columnPairs words.length n σ) ↔
      ∀ (i j : Nat) word c, words[i]? = some word → word[j]? = some c →
        c.allows (σ i j) = true := by
  rw [Sum.columns, columnPairs, List.forall₂_map_left_iff, List.forall₂_map_right_iff,
    List.forall₂_same]
  constructor
  · intro h i j word c hword hc
    obtain ⟨hi, rfl⟩ := List.getElem?_eq_some_iff.mp hword
    obtain ⟨hj, rfl⟩ := List.getElem?_eq_some_iff.mp hc
    have hcolumn := h j (List.mem_range.mpr (hsize _ (List.getElem_mem hi) ▸ hj))
    simpa [hj] using (List.forall₂_iff_get.mp hcolumn).2 i (by simpa) (by simpa)
  · intro h j hj
    refine List.forall₂_iff_get.mpr ⟨by simp, fun i hi _ => ?_⟩
    rw [List.length_map] at hi
    have hlt : j < words[i].length := by
      rw [hsize _ (List.getElem_mem hi)]
      exact List.mem_range.mp hj
    simpa [hlt] using h i j _ _ (List.getElem?_eq_getElem hi) (List.getElem?_eq_getElem hlt)

theorem path_columnPairs {m : Nat} : Path (columnPairs m n σ) constant 0 ↔
    ∑ i ∈ Finset.range m, ∑ j ∈ Finset.range n, 2 ^ j * (σ i j).signed
      ≡ constant [ZMOD 2 ^ n] := by
  have htotal : signedTotal (columnPairs m n σ) =
      ∑ i ∈ Finset.range m, ∑ j ∈ Finset.range n, 2 ^ j * (σ i j).signed := by
    simp only [columnPairs, signedTotal_columns, total_range, signedDifference_range]
  have hdvd : Path (columnPairs m n σ) constant 0 ↔ _ := ⟨dvd_of_path, path_of_dvd⟩
  rw [hdvd, htotal, columnPairs, List.length_map, List.length_range, Nat.one_shiftLeft, zero_add,
    Int.modEq_comm, Int.modEq_iff_dvd]
  simp

theorem crosses_columns (hsize : ∀ word ∈ words, word.length = n) :
    Crosses (Sum.columns words n) constant [0] (columnPairs words.length n σ) ↔
      Solves words n constant σ := by
  simp only [Crosses, allow_columns hsize, List.mem_singleton, exists_eq_left, path_columnPairs,
    Solves]

theorem exists_table {pss : List (List Pair)} (h : List.Forall₂ Allow (Sum.columns words n) pss) :
    ∃ σ, pss = columnPairs words.length n σ := by
  refine ⟨fun i j => (pss.getD j []).getD i ⟨false, false⟩, List.ext_getElem ?_ fun j hj _ => ?_⟩
  · simpa [Sum.columns, columnPairs] using h.length_eq.symm
  · have hcolumn := (List.forall₂_iff_get.mp h).2 j (h.length_eq ▸ hj) hj
    have hlength : words.length = pss[j].length := by simpa [Sum.columns] using hcolumn.length_eq
    refine List.ext_getElem (by simp [columnPairs, hlength]) fun i hi _ => ?_
    simp [columnPairs, hj, hi]

theorem exists_crosses (hsize : ∀ word ∈ words, word.length = n) :
    (∃ pss, Crosses (Sum.columns words n) constant [0] pss) ↔ ∃ σ, Solves words n constant σ := by
  constructor
  · rintro ⟨pss, hpss⟩
    obtain ⟨σ, rfl⟩ := exists_table hpss.1
    exact ⟨σ, (crosses_columns hsize).mp hpss⟩
  · rintro ⟨σ, hσ⟩
    exact ⟨_, (crosses_columns hsize).mpr hσ⟩

theorem usedAt_iff (hsize : ∀ word ∈ words, word.length = n) {j : Nat} (hj : j < n) :
    UsedAt (Sum.columns words n) constant [0] j ps ↔
      ∃ σ, Solves words n constant σ ∧ (List.range words.length).map (σ · j) = ps := by
  have hcolumn (σ : Nat → Nat → Pair) : (columnPairs words.length n σ)[j]? =
      some ((List.range words.length).map (σ · j)) := by
    simp [columnPairs, hj]
  constructor
  · rintro ⟨pss, hpss, hps⟩
    obtain ⟨σ, rfl⟩ := exists_table hpss.1
    exact ⟨σ, (crosses_columns hsize).mp hpss, Option.some.inj ((hcolumn σ).symm.trans hps)⟩
  · rintro ⟨σ, hσ, rfl⟩
    exact ⟨_, (crosses_columns hsize).mpr hσ, hcolumn σ⟩

theorem settleWords_eq (hne : words ≠ []) (hsize : ∀ word ∈ words, word.length = n) :
    settleWords words constant =
      (settle (Sum.columns words n) constant [0]).map (·.2) := by
  cases words with
  | nil => exact absurd rfl hne
  | cons word words => rw [settleWords_cons, hsize word (.head _)]

theorem settleWords_eq_none (hne : words ≠ []) (hsize : ∀ word ∈ words, word.length = n) :
    settleWords words constant = none ↔ ¬ ∃ σ, Solves words n constant σ := by
  rw [settleWords_eq hne hsize, Option.map_eq_none_iff, settle_eq_none (List.cons_ne_nil _ _),
    exists_crosses hsize]

/-- The settled columns of words have just what the solutions of the sum use there. -/
theorem exact_settleWords (hne : words ≠ []) (hsize : ∀ word ∈ words, word.length = n)
    (h : settleWords words constant = some settled) :
    settled.length = n ∧ ∀ (j : Nat) (s : Settled), settled[j]? = some s →
      s.Exact (words.map (·.getD j .any)) fun ps =>
        ∃ σ, Solves words n constant σ ∧ (List.range words.length).map (σ · j) = ps := by
  rw [settleWords_eq hne hsize] at h
  obtain ⟨⟨alive, settled⟩, hsettled, rfl⟩ := Option.map_eq_some_iff.mp h
  obtain ⟨-, hlength, hexact⟩ := exact_settle hsettled
  replace hlength : settled.length = n := by simpa [Sum.columns] using hlength
  refine ⟨hlength, ?_⟩
  intro j s hs
  have hj : j < n := hlength ▸ (List.getElem?_eq_some_iff.mp hs).1
  have hcolumn : (Sum.columns words n)[j]? = some (words.map (·.getD j .any)) := by
    simp [Sum.columns, hj]
  exact (hexact j s _ hs hcolumn).congr fun _ => usedAt_iff hsize hj

theorem exact_ofColumns (hne : words ≠ []) (hsize : ∀ word ∈ words, word.length = n)
    (h : settleWords words constant = some settled) {i : Nat} {word : List Condition}
    (hword : (ofColumns (settled.map (·.conditions)) words.length)[i]? = some word) :
    word.length = n ∧ ∀ (j : Nat) c, word[j]? = some c → ∀ p,
      c.allows p = true ↔ ∃ σ, Solves words n constant σ ∧ σ i j = p := by
  obtain ⟨hlength, hexact⟩ := exact_settleWords hne hsize h
  obtain ⟨hi, rfl⟩ := List.getElem?_eq_some_iff.mp hword
  simp only [ofColumns, List.length_map, List.length_range] at hi
  simp only [ofColumns, List.getElem_map, List.getElem_range]
  refine ⟨by simp [hlength], ?_⟩
  intro j c hc p
  obtain ⟨hj, rfl⟩ := List.getElem?_eq_some_iff.mp hc
  rw [List.length_map, List.length_map] at hj
  have hs := hexact j _ (List.getElem?_eq_getElem hj)
  have hlt : i < settled[j].conditions.length := by simpa [hs.length] using hi
  have hallows := hs.allows (List.getElem?_eq_getElem hlt) p
  simp only [exists_exists_and_eq_and, List.getElem?_map, List.getElem?_range hi, Option.map_some,
    Option.some.injEq] at hallows
  simpa [hlt] using hallows

theorem sameSize_of_length (h : ∀ word ∈ words, word.length = n) : sameSize words = true := by
  cases words with
  | nil => rfl
  | cons word words =>
    obtain ⟨hword, h⟩ := List.forall_mem_cons.mp h
    exact List.all_eq_true.mpr fun w hw => by rw [h w hw, hword, beq_self_eq_true]

/-- Words of one size cannot be derived just if no pairs solve the sum. Otherwise each bit of
a derived word allows just the pairs that some solution has there. -/
theorem deriveChecked_exact (hne : words ≠ []) (hsize : ∀ word ∈ words, word.length = n) :
    ∃ result, deriveChecked words constant = .ok result ∧
      (result = none ↔ ¬ ∃ σ, Solves words n constant σ) ∧
      ∀ derived, result = some derived →
        derived.length = words.length ∧
        ∀ (i : Nat) word, derived[i]? = some word → word.length = n ∧
          ∀ (j : Nat) c, word[j]? = some c → ∀ p,
            c.allows p = true ↔ ∃ σ, Solves words n constant σ ∧ σ i j = p := by
  refine ⟨derive words constant, if_pos (sameSize_of_length hsize), ?_, fun derived hderived => ?_⟩
  · rw [derive, Option.map_eq_none_iff, settleWords_eq_none hne hsize]
  · obtain ⟨settled, hsettled, rfl⟩ := Option.map_eq_some_iff.mp hderived
    exact ⟨by simp [ofColumns], fun i word hword => exact_ofColumns hne hsize hsettled hword⟩

theorem deriveChecked_exact_two_bits :
    deriveChecked [[.x, .x]] 1 = .ok (some [[.n, .x]]) ∧
      ∀ σ, Solves [[.x, .x]] 2 1 σ → σ 0 0 = ⟨false, true⟩ := by
  have hrun : deriveChecked [[.x, .x]] 1 = .ok (some [[.n, .x]]) := by decide +kernel
  have hsize : ∀ word ∈ [[Condition.x, .x]], word.length = 2 := by decide
  obtain ⟨result, hresult, -, hsome⟩ :=
    @deriveChecked_exact 1 [[.x, .x]] 2 (List.cons_ne_nil _ _) hsize
  obtain ⟨-, hderived⟩ := hsome _ (Except.ok.inj (hresult.symm.trans hrun))
  obtain ⟨-, hexact⟩ := hderived 0 _ rfl
  refine ⟨hrun, fun σ hσ => ?_⟩
  have hallows := (hexact 0 .n rfl (σ 0 0)).mpr ⟨σ, hσ, rfl⟩
  have key : ∀ p ∈ Pair.all, Condition.n.allows p = true → p = ⟨false, true⟩ := by decide
  exact key _ (Pair.mem_all _) hallows

end

end Sum

end ShaDiff
