import ShaDiff.Proofs.Topology.Build

/-!
# The topology is the step function

The columns of a built topology hold for a choice of bits if and only if all rounds hold
of the words (`Built.holds_iff`). So each recorded sum holds modulo two to the number of
bits, and the words that are given determine all others: bits for these can be chosen at
will, and then the columns hold for exactly one choice of the rest.
-/

namespace ShaDiff.Topology

open StepFunction (Round isInput)

variable {t : Topology} {order : Nat} {ν ν' : Bit → Bool}

def wordValues (t : Topology) (n : Nat) (ν : Bit → Bool) (r : Role) (round : Int) : BitVec n :=
  wordValue n ν (t.wordOf r round)

-- ---------------------------------------------------------------------------
-- Columns and rounds
-- ---------------------------------------------------------------------------

theorem Built.holds_iff (h : t.Built order) (hz : ∀ b : Bit, b.isZero = true → ν b = false) :
    (∀ o ∈ t.operations, o.Holds t.wordSize ν) ↔
      ∀ i < order, Round (t.wordValues t.wordSize ν) i := by
  simp only [← Array.mem_toList_iff, h.operations, List.mem_flatMap, List.mem_map, List.mem_range]
  constructor
  · intro hall i hi
    refine (operationsOfRound_hold hz).mp fun o ho => hall o ⟨i, ⟨i, hi, rfl⟩, ho⟩
  · rintro hround o ⟨_, ⟨i, hi, rfl⟩, ho⟩
    exact (operationsOfRound_hold hz).mpr (hround i hi) o ho

theorem Built.sum_holds (h : t.Built order) (hν : t.Computes ν) : ∀ s ∈ t.sums,
    wordSum (s.positive.map (wordValue t.wordSize ν)) =
      wordSum (s.negative.map (wordValue t.wordSize ν)) := by
  intro s hs
  rw [← Array.mem_toList_iff, h.sums] at hs
  obtain ⟨_, hround, hs⟩ := List.mem_flatMap.mp hs
  obtain ⟨i, hi, rfl⟩ := List.mem_map.mp hround
  exact sumsOfRound_hold ((h.holds_iff hν.zero).mp hν.operation i (List.mem_range.mp hi)) s hs

-- ---------------------------------------------------------------------------
-- Inputs determine all bits
-- ---------------------------------------------------------------------------

def AgreeOnInputs (t : Topology) (ν ν' : Bit → Bool) : Prop :=
  ∀ i w, t.words[i]? = some w → isInput w.role w.round = true →
    ∀ j < t.wordSize, ν ⟨i, j⟩ = ν' ⟨i, j⟩

def bitsOf (t : Topology) (word : Role → Int → BitVec t.wordSize) (b : Bit) : Bool :=
  if b.isZero then false
  else
    match t.words[b.word]? with
    | some w => (word w.role w.round).getLsbD b.column
    | none => false

theorem bitsOf_of_word {word : Role → Int → BitVec t.wordSize} {i : Nat} {w : Word}
    (hi : i ≠ zeroWord) (hw : t.words[i]? = some w) (j : Nat) :
    t.bitsOf word ⟨i, j⟩ = (word w.role w.round).getLsbD j := by
  rw [bitsOf, if_neg (by simpa [Bit.isZero] using hi), hw]

theorem Built.wordOf_spec (h : t.Built order) {r : Role} {k : Int}
    (hr : r.applicable k order = true) :
    t.wordOf r k ≠ zeroWord ∧ t.words[t.wordOf r k]? = some ⟨r, k⟩ := by
  obtain ⟨i, hi, hne, hw⟩ := h.stepWord hr
  rw [wordOf, hi]
  exact ⟨hne, hw⟩

theorem Built.wordValues_bitsOf (h : t.Built order) (word : Role → Int → BitVec t.wordSize)
    {r : Role} {k : Int} (hr : r.applicable k order = true) :
    t.wordValues t.wordSize (t.bitsOf word) r k = word r k := by
  obtain ⟨hne, hw⟩ := h.wordOf_spec hr
  refine BitVec.eq_of_getLsbD_eq fun j hj => ?_
  rw [wordValues, getLsbD_wordValue hj, bitsOf_of_word hne hw]

theorem Built.bit_eq (h : t.Built order) (ν : Bit → Bool) {i : Nat} {w : Word} (hi : i ≠ zeroWord)
    (hw : t.words[i]? = some w) {j : Nat} (hj : j < t.wordSize) :
    ν ⟨i, j⟩ = (t.wordValues t.wordSize ν w.role w.round).getLsbD j := by
  rw [wordValues, getLsbD_wordValue hj, wordOf, (h.word hi hw).2]
  rfl

/-- Rounds can be run from any bits of the words that are given. -/
theorem Built.exists_computes (h : t.Built order) (ν₀ : Bit → Bool)
    (hz : ∀ b : Bit, b.isZero = true → ν₀ b = false) :
    ∃ ν, t.Computes ν ∧ t.AgreeOnInputs ν ν₀ := by
  let word := StepFunction.run (t.wordValues t.wordSize ν₀) order
  have hzero : ∀ b : Bit, b.isZero = true → t.bitsOf word b = false := fun b hb => if_pos hb
  refine ⟨t.bitsOf word, ⟨hzero, ?_⟩, ?_⟩
  · refine (h.holds_iff hzero).mpr fun i hi => ?_
    have hround : Round word i := StepFunction.round_run _ order i hi
    refine hround.congr (Int.natCast_nonneg i) fun r k hr hsince hk => ?_
    exact h.wordValues_bitsOf word ((Role.applicable_iff h.le_max).mpr ⟨hr, hsince, by omega⟩)
  · intro i w hw hinput j hj
    by_cases hi : i = zeroWord
    · subst hi
      rw [hzero _ rfl, hz _ rfl]
    · rw [bitsOf_of_word hi hw, h.bit_eq ν₀ hi hw hj]
      have hkept : word w.role w.round = t.wordValues t.wordSize ν₀ w.role w.round :=
        StepFunction.run_of_isInput hinput
      rw [hkept]

/-- Two computations that agree on the words that are given agree on all words. -/
theorem Built.eq_of_agreeOnInputs (h : t.Built order) (hν : t.Computes ν) (hν' : t.Computes ν')
    (hagree : t.AgreeOnInputs ν ν') {i j : Nat} (hi : i < t.words.size) (hj : j < t.wordSize) :
    ν ⟨i, j⟩ = ν' ⟨i, j⟩ := by
  by_cases hzero : i = zeroWord
  · subst hzero
    rw [hν.zero _ rfl, hν'.zero _ rfl]
  have hw : t.words[i]? = some t.words[i] := Array.getElem?_eq_getElem hi
  rw [h.bit_eq ν hzero hw hj, h.bit_eq ν' hzero hw hj]
  have hrounds := (h.holds_iff hν.zero).mp hν.operation
  have hrounds' := (h.holds_iff hν'.zero).mp hν'.operation
  rw [StepFunction.eq_of_rounds h.le_max hrounds hrounds' ?_ (h.word hzero hw).1]
  intro r k hr hinput
  obtain ⟨-, hw⟩ := h.wordOf_spec hr
  refine BitVec.eq_of_getLsbD_eq fun j hj => ?_
  rw [wordValues, wordValues, getLsbD_wordValue hj, getLsbD_wordValue hj]
  exact hagree _ _ hw hinput j hj

-- ---------------------------------------------------------------------------
-- Accepted entries
-- ---------------------------------------------------------------------------

/-- What it means that a topology of so many rounds over words of so many bits is the
step function. -/
structure IsStepFunction (t : Topology) (n order : Nat) : Prop where
  /-- Every round has a word of its own for each of its roles. -/
  word : ∀ {r k}, r.applicable k order = true →
    t.wordAt? r k = some (t.wordOf r k) ∧ t.wordOf r k ≠ zeroWord ∧
      t.words[t.wordOf r k]? = some ⟨r, k⟩
  /-- All columns hold if and only if all rounds do. -/
  holds_iff : ∀ ν : Bit → Bool, (∀ b : Bit, b.isZero = true → ν b = false) →
    ((∀ o ∈ t.operations, o.Holds n ν) ↔ ∀ i < order, Round (t.wordValues n ν) i)
  /-- The recorded sums hold wherever all columns do. -/
  sum_holds : ∀ ν, t.Computes ν → ∀ s ∈ t.sums,
    wordSum (s.positive.map (wordValue n ν)) = wordSum (s.negative.map (wordValue n ν))
  /-- For any bits of the words that are given there is one computation. -/
  exists_unique : ∀ ν₀ : Bit → Bool, (∀ b : Bit, b.isZero = true → ν₀ b = false) →
    ∃ ν, t.Computes ν ∧ t.AgreeOnInputs ν ν₀ ∧
      ∀ ν', t.Computes ν' → t.AgreeOnInputs ν' ν₀ →
        ∀ i < t.words.size, ∀ j < n, ν' ⟨i, j⟩ = ν ⟨i, j⟩

theorem wordAt?_of_stepWord? {r : Role} {k : Int} {i : Nat} (h : t.stepWord? r k = some i) :
    t.wordAt? r k = some i := by
  obtain ⟨s, hs, hi⟩ := Option.bind_eq_some_iff.mp h
  rw [wordAt?, hs]
  exact hi

theorem Built.isStepFunction (h : t.Built order) : t.IsStepFunction t.wordSize order where
  word {r k} hr := by
    obtain ⟨i, hi, -⟩ := h.stepWord hr
    refine ⟨?_, h.wordOf_spec hr⟩
    rw [wordAt?_of_stepWord? hi, wordOf, hi]
    rfl
  holds_iff ν hz := h.holds_iff hz
  sum_holds ν hν := h.sum_holds hν
  exists_unique ν₀ hz := by
    obtain ⟨ν, hν, hagree⟩ := h.exists_computes ν₀ hz
    refine ⟨ν, hν, hagree, fun ν' hν' hagree' i hi j hj => ?_⟩
    refine h.eq_of_agreeOnInputs hν' hν (fun i w hw hinput j hj => ?_) hi hj
    rw [hagree i w hw hinput j hj, hagree' i w hw hinput j hj]

/-- What accepted entries build is the step function. -/
theorem isStepFunction_of_accepted {e : Encoding} {n : Nat} {entries : List (String × Int)}
    (haccept : ({ encoding := e, wordSize := n } : Topology).accept? entries = some t)
    (horder : t.order = some order) : t.IsStepFunction n order := by
  have hsane := sane_of_accept? haccept
  obtain hopen | ⟨order', hbuilt⟩ := hsane.open_or_built
  · exact absurd (hopen.order.symm.trans horder) (by simp)
  · obtain rfl : order' = order := Option.some.inj (hbuilt.order_eq.symm.trans horder)
    obtain rfl := hsane.wordSize_eq
    exact hbuilt.isStepFunction

/-- Entries of one round over words of a bit, in which also `T` has atoms. Each bit has two
atoms. -/
def sampleEntries : List (String × Int) :=
  [("zero", 1), ("A_-4_0", 3), ("A_-3_0", 5), ("A_-2_0", 7), ("A_-1_0", 9), ("A_0_0", 11),
   ("E_-4_0", 13), ("E_-3_0", 15), ("E_-2_0", 17), ("E_-1_0", 19), ("E_0_0", 21), ("W_0_0", 23),
   ("T_0_0", 25), ("order", 1)]

/-- Entries of one round over words of two bits, in which also `T`, the rotations of `A` and the
carries of `E` have atoms. -/
def wideEntries : List (String × Int) :=
  [("zero", 1), ("A_-4_0", 3), ("A_-4_1", 5), ("A_-3_0", 7), ("A_-3_1", 9), ("A_-2_0", 11),
   ("A_-2_1", 13), ("A_-1_0", 15), ("A_-1_1", 17), ("A_0_0", 19), ("A_0_1", 21), ("E_-4_0", 23),
   ("E_-4_1", 25), ("E_-3_0", 27), ("E_-3_1", 29), ("E_-2_0", 31), ("E_-2_1", 33), ("E_-1_0", 35),
   ("E_-1_1", 37), ("E_0_0", 39), ("E_0_1", 41), ("W_0_0", 43), ("W_0_1", 45), ("T_0_0", 47),
   ("T_0_1", 49), ("S0_0_0", 51), ("S0_0_1", 53), ("Ec1_0_0", 55), ("Ec1_0_1", 57), ("order", 1)]

theorem isStepFunction_of_sampleEntries :
    (∃ t : Topology,
      ({ encoding := .li2024, wordSize := 1 } : Topology).accept? sampleEntries = some t ∧
        t.order = some 1 ∧ t.IsStepFunction 1 1) ∧
      ∃ t : Topology,
        ({ encoding := .li2024, wordSize := 2 } : Topology).accept? wideEntries = some t ∧
          t.order = some 1 ∧ t.IsStepFunction 2 1 := by
  have haccepted : (({ encoding := .li2024, wordSize := 1 } : Topology).accept?
      sampleEntries).bind (·.order) = some 1 := by decide +kernel
  have hwide : (({ encoding := .li2024, wordSize := 2 } : Topology).accept?
      wideEntries).bind (·.order) = some 1 := by decide +kernel
  obtain ⟨t, ht, horder⟩ := Option.bind_eq_some_iff.mp haccepted
  obtain ⟨u, hu, horder'⟩ := Option.bind_eq_some_iff.mp hwide
  exact ⟨⟨t, ht, horder, isStepFunction_of_accepted ht horder⟩,
    u, hu, horder', isStepFunction_of_accepted hu horder'⟩

end ShaDiff.Topology
