import Mathlib.Data.List.Nodup
import ShaDiff.Proofs.Topology.Readers

/-!
# Bits of a column

The words an operation reads and writes differ from each other, but that an addition reads
its own carries, further up, and an exclusive or reads one word only. So no bit is met twice
at a column, except as inputs of an exclusive or.
-/

namespace ShaDiff

/-- The word a view shows, where it does not show a zero that was brought in. -/
def View.word : View → Nat
  | whole w | rotated w _ | lowered w _ | raised w _ => w

theorem View.word_bit {size j : Nat} {v : View} (h : (v.bit size j).isZero = false) :
    (v.bit size j).word = v.word := by
  cases v with
  | whole | rotated => rfl
  | lowered | raised =>
    dsimp only [bit] at h ⊢
    split
    · rfl
    · next hout =>
      rw [if_neg hout] at h
      cases h

namespace Topology

variable {t : Topology} {o : Operation} {j i i' : Nat} {b : Bit}

/-- Whether an operation meets no word twice, carries apart and inputs of an exclusive or. -/
structure Apart (o : Operation) : Prop where
  inputs : o.gate = .xor3 ∨ (o.inputs.map View.word).Nodup
  outputs : (o.outputs.map View.word).Nodup
  across : ∀ v ∈ o.inputs, ∀ v' ∈ o.outputs, v.word = v'.word →
    ∃ w, ∃ k > 0, v = .raised w k ∧ v' = .whole w

theorem eq_of_word {size : Nat} {vs : List View} (hvs : (vs.map View.word).Nodup)
    (hb : (vs.map (·.bit size j))[i]? = some b) (hb' : (vs.map (·.bit size j))[i']? = some b)
    (hz : b.isZero = false) : i = i' := by
  have hword {i : Nat} (hb : (vs.map (·.bit size j))[i]? = some b) :
      (vs.map View.word)[i]? = some b.word := by
    rw [List.getElem?_map, Option.map_eq_some_iff] at hb ⊢
    obtain ⟨v, hv, rfl⟩ := hb
    exact ⟨v, hv, (View.word_bit hz).symm⟩
  obtain ⟨hlt, -⟩ := List.getElem?_eq_some_iff.mp (hword hb)
  exact (List.getElem?_inj hlt hvs).mp ((hword hb).trans (hword hb').symm)

theorem Apart.not_across (h : Apart o) (hb : b ∈ t.inputBits o j) (hb' : b ∈ t.outputBits o j) :
    b.isZero = true := by
  by_contra hz
  have hz := Bool.eq_false_iff.mpr hz
  obtain ⟨v, hv, rfl⟩ := List.mem_map.mp hb
  obtain ⟨v', hv', heq⟩ := List.mem_map.mp hb'
  have hword : v.word = v'.word := by
    rw [← View.word_bit hz, ← heq, View.word_bit (heq ▸ hz)]
  obtain ⟨w, k, hk, rfl, rfl⟩ := h.across v hv v' hv' hword
  have hcolumn := congrArg Bit.column heq
  simp only [View.bit] at hcolumn hz
  split at hcolumn
  · next hle =>
    simp only at hcolumn
    omega
  · next hlt =>
    rw [if_neg hlt] at hz
    cases hz

theorem Apart.index (h : Apart o)
    (hb : (t.inputBits o j ++ t.outputBits o j)[i]? = some b)
    (hb' : (t.inputBits o j ++ t.outputBits o j)[i']? = some b) (hz : b.isZero = false) :
    i = i' ∨ o.gate = .xor3 ∧ i < o.inputs.length ∧ i' < o.inputs.length := by
  have hlength : (t.inputBits o j).length = o.inputs.length := List.length_map _
  rw [List.getElem?_append, hlength] at hb hb'
  split at hb <;> split at hb'
  · next hi hi' =>
    rcases h.inputs with hxor | hnodup
    · exact .inr ⟨hxor, hi, hi'⟩
    · exact .inl (eq_of_word hnodup hb hb' hz)
  · exact absurd (h.not_across (List.mem_of_getElem? hb) (List.mem_of_getElem? hb')) (by simp [hz])
  · exact absurd (h.not_across (List.mem_of_getElem? hb') (List.mem_of_getElem? hb)) (by simp [hz])
  · have := eq_of_word h.outputs hb hb' hz
    exact .inl (by omega)

-- ---------------------------------------------------------------------------
-- Operations of a round
-- ---------------------------------------------------------------------------

section

variable {round : Int} {role : Role} {g : Gate} {w : Nat} {word : Role → (back : Nat) → Nat}
  {size : Nat} {name : Nat → Option (Role × Nat)}

theorem apart_xorOf (name : Nat → Option (Role × Nat)) {views : List View}
    (hviews : ∀ v ∈ views, name v.word ≠ name (word role 0)) :
    Apart (xorOf word round role views) where
  inputs := .inl rfl
  outputs := List.pairwise_singleton _ _
  across v hv v' hv' hword := by
    obtain rfl := List.mem_singleton.mp hv'
    exact absurd (congrArg name hword) (hviews v hv)

theorem apart_of_nodup (ws : List Nat) (carries : List (Nat × Nat))
    (hcarries : ∀ x ∈ carries, 0 < x.2) (hnodup : (ws ++ carries.map (·.1) ++ [w]).Nodup) :
    Apart ⟨g, round, role, ws.map .whole ++ carries.map fun x => .raised x.1 x.2,
      (carries.map (·.1)).reverse.map .whole ++ [.whole w]⟩ := by
  have hin : ((ws.map View.whole ++ carries.map fun x => View.raised x.1 x.2).map View.word) =
      ws ++ carries.map (·.1) := by
    simp [View.word, Function.comp_def]
  have hout : (((carries.map (·.1)).reverse.map View.whole ++ [View.whole w]).map View.word) =
      (carries.map (·.1)).reverse ++ [w] := by
    simp [View.word, Function.comp_def]
  obtain ⟨hread, -, hwritten⟩ := List.nodup_append.mp hnodup
  refine ⟨.inr (hin ▸ hread), ?_, ?_⟩
  · show List.Nodup (List.map _ _)
    rw [hout, List.nodup_append]
    refine ⟨List.nodup_reverse.mpr (List.nodup_append.mp hread).2.1, List.pairwise_singleton _ _,
      fun x hx y hy => hwritten x ?_ y hy⟩
    exact List.mem_append_right _ (List.mem_reverse.mp hx)
  · intro v hv v' hv' hword
    have hmem : v.word ∈ ws ++ carries.map (·.1) := hin ▸ List.mem_map_of_mem hv
    rcases List.mem_append.mp hv' with hv' | hv'
    · obtain ⟨c, hc, rfl⟩ := List.mem_map.mp hv'
      have hc := List.mem_reverse.mp hc
      rcases List.mem_append.mp hv with hv | hv
      · obtain ⟨x, hx, rfl⟩ := List.mem_map.mp hv
        exact absurd hword ((List.nodup_append.mp hread).2.2 x hx c hc)
      · obtain ⟨x, hx, rfl⟩ := List.mem_map.mp hv
        obtain rfl : x.1 = c := hword
        exact ⟨x.1, x.2, hcarries x hx, rfl, rfl⟩
    · obtain rfl := List.mem_singleton.mp hv'
      exact absurd hword (hwritten _ hmem w (List.mem_singleton_self w))

variable (hround : 0 ≤ round)
  (hname : ∀ r (k : Nat), r ≠ .zero → r.since ≤ round - k → name (word r k) = some (r, k))

include hround hname

theorem apart_functionOperations : ∀ o ∈ functionOperations word size round, Apart o := by
  have hold (r : Role) (k : Nat) (hr : r = .a ∨ r = .e) (hk : k ≤ 4) :
      name (word r k) = some (r, k) := by
    rcases hr with rfl | rfl <;> exact hname _ k (by decide) (by simp only [Role.since]; omega)
  have hnew (r : Role) (hzero : r ≠ .zero) (hr : r.since = 0) : name (word r 0) = some (r, 0) :=
    hname r 0 hzero (by omega)
  simp only [functionOperations, List.forall_mem_cons]
  refine ⟨?_, ?_, ?_, ?_, List.forall_mem_nil _⟩
  case refine_1 =>
    refine apart_xorOf name ?_
    simp (disch := decide) [rotation, View.word, hold, hnew]
  case refine_2 =>
    refine apart_xorOf name ?_
    simp (disch := decide) [rotation, View.word, hold, hnew]
  case refine_3 =>
    refine apart_of_nodup [word .a 1, word .a 2, word .a 3] [] (List.forall_mem_nil _) ?_
    refine List.Nodup.of_map name ?_
    simp (disch := decide) [hold, hnew]
  case refine_4 =>
    refine apart_of_nodup [word .e 1, word .e 2, word .e 3] [] (List.forall_mem_nil _) ?_
    refine List.Nodup.of_map name ?_
    simp (disch := decide) [hold, hnew]

theorem apart_registerOperations : ∀ o ∈ registerOperations word round, Apart o := by
  have hold (r : Role) (hr : r = .a ∨ r = .e) : name (word r 4) = some (r, 4) := by
    rcases hr with rfl | rfl <;> exact hname _ 4 (by decide) (by simp only [Role.since]; omega)
  have hnew (r : Role) (hzero : r ≠ .zero) (hr : r.since ≤ 0) : name (word r 0) = some (r, 0) :=
    hname r 0 hzero (by omega)
  simp only [registerOperations, List.forall_mem_cons]
  refine ⟨?_, ?_, ?_, List.forall_mem_nil _⟩
  case refine_1 =>
    refine apart_of_nodup [word .e 4, word .bigSigma1 0, word .ch 0, word .k 0, word .w 0]
      [(word .tCarry 0, 1), (word .tCarry2 0, 2)] (by simp) ?_
    refine List.Nodup.of_map name ?_
    simp (disch := decide) [hold, hnew]
  case refine_2 =>
    refine apart_of_nodup [word .a 4, word .t 0] [(word .eCarry 0, 1)] (by simp) ?_
    refine List.Nodup.of_map name ?_
    simp (disch := decide) [hold, hnew]
  case refine_3 =>
    refine apart_of_nodup [word .t 0, word .bigSigma0 0, word .maj 0]
      [(word .aCarry 0, 1), (word .aCarry2 0, 2)] (by simp) ?_
    refine List.Nodup.of_map name ?_
    simp (disch := decide) [hnew]

omit hround in
theorem apart_messageOperations (hmin : 16 ≤ round) :
    ∀ o ∈ messageOperations word size round, Apart o := by
  have hw (k : Nat) (hk : k ≤ 16) : name (word .w k) = some (.w, k) :=
    hname _ k (by decide) (by simp only [Role.since]; omega)
  have hnew (r : Role) (hzero : r ≠ .zero) (hr : r.since ≤ 16) : name (word r 0) = some (r, 0) :=
    hname r 0 hzero (by omega)
  simp only [messageOperations, List.forall_mem_cons]
  refine ⟨?_, ?_, ?_, List.forall_mem_nil _⟩
  case refine_1 =>
    refine apart_xorOf name ?_
    simp (disch := decide) [rotation, View.word, hw, hnew]
  case refine_2 =>
    refine apart_xorOf name ?_
    simp (disch := decide) [rotation, View.word, hw, hnew]
  case refine_3 =>
    refine apart_of_nodup [word .smallSigma1 0, word .w 7, word .smallSigma0 0, word .w 16]
      [(word .wCarry 0, 1), (word .wCarry2 0, 2)] (by simp) ?_
    refine List.Nodup.of_map name ?_
    simp (disch := decide) [hw, hnew]

variable (name) in
theorem apart_operationsOfRound : ∀ o ∈ operationsOfRound word size round, Apart o := by
  simp only [operationsOfRound, List.forall_mem_append]
  refine ⟨⟨apart_functionOperations hround hname, ?_⟩, apart_registerOperations hround hname⟩
  split
  · next hmin => exact apart_messageOperations hname hmin
  · exact List.forall_mem_nil _

end

-- ---------------------------------------------------------------------------
-- Operations of a topology
-- ---------------------------------------------------------------------------

def HasWords (t : Topology) (order : Nat) : Prop :=
  ∀ (r : Role) (k : Int), r ≠ .zero → r.since ≤ k → k < order →
    ∃ w, t.stepWord? r k = some w ∧ t.words[w]? = some ⟨r, k⟩

theorem HasWords.apart {order i : Nat} (h : t.HasWords order) (hi : i < order) {size : Nat} :
    ∀ o ∈ operationsOfRound (back t.wordOf (Int.ofNat i)) size (Int.ofNat i), Apart o := by
  refine apart_operationsOfRound (fun w => (t.words[w]?).map fun word =>
    (word.role, (Int.ofNat i - word.round).toNat)) (Int.natCast_nonneg i) fun r k hr hsince => ?_
  obtain ⟨w, hw, hname⟩ := h r (Int.ofNat i - k) hr hsince (by rw [Int.ofNat_eq_natCast]; omega)
  have hback : back t.wordOf (Int.ofNat i) r k = w := by
    rw [back, wordOf, hw]
    rfl
  have hrounds : (Int.ofNat i - (Int.ofNat i - (k : Int))).toNat = k := by omega
  rw [hback, hname, Option.map_some, hrounds]

theorem Built.hasWords {order : Nat} (h : t.Built order) : t.HasWords order := by
  intro r k hr hsince hlt
  obtain ⟨w, hw, -, hname⟩ := h.stepWord ((Role.applicable_iff h.le_max).mpr ⟨hr, hsince, hlt⟩)
  exact ⟨w, hw, hname⟩

theorem Built.apart {order : Nat} (h : t.Built order) (ho : o ∈ t.operations) : Apart o := by
  rw [← Array.mem_toList_iff, h.operations] at ho
  obtain ⟨_, hround, ho⟩ := List.mem_flatMap.mp ho
  obtain ⟨i, hi, rfl⟩ := List.mem_map.mp hround
  exact h.hasWords.apart (List.mem_range.mp hi) o ho

/-- Whether no operation meets a word twice but as carries and as inputs of an exclusive or,
which has three of them. -/
structure Distinct (t : Topology) : Prop where
  apart : ∀ o ∈ t.operations, Apart o
  arity : ∀ o ∈ t.operations, o.gate = .xor3 → o.inputs.length = 3

theorem Built.distinct {order : Nat} (h : t.Built order) : t.Distinct where
  apart _ ho := h.apart ho
  arity o ho hxor := by
    rw [← Array.mem_toList_iff, h.operations] at ho
    obtain ⟨i, -, ho⟩ := List.mem_flatMap.mp ho
    rw [inputs_operationsOfRound _ _ i o ho, hxor]
    rfl

end Topology

end ShaDiff
