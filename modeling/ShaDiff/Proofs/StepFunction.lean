import ShaDiff.Proofs.Topology.Instances
import ShaDiff.Proofs.Word
import ShaDiff.Topology.Round

/-!
# Rounds of the step function

What a round of the step function says of words as bit vectors, and that the
operations of a round say the same, column by column, of the bits of the words
(`operationsOfRound_hold`). The carry words are part of it: each addition has one
choice of carries, and with them its columns hold if and only if its words sum up.
-/

namespace ShaDiff

variable {n : Nat}

-- ---------------------------------------------------------------------------
-- Functions of words
-- ---------------------------------------------------------------------------

namespace StepFunction

def bigSigma0 (x : BitVec n) : BitVec n :=
  x.rotateRight 2 ^^^ x.rotateRight 13 ^^^ x.rotateRight 22

def bigSigma1 (x : BitVec n) : BitVec n :=
  x.rotateRight 6 ^^^ x.rotateRight 11 ^^^ x.rotateRight 25

def smallSigma0 (x : BitVec n) : BitVec n :=
  x.rotateRight 7 ^^^ x.rotateRight 18 ^^^ x >>> 3

def smallSigma1 (x : BitVec n) : BitVec n :=
  x.rotateRight 17 ^^^ x.rotateRight 19 ^^^ x >>> 10

def majority (x y z : BitVec n) : BitVec n := (x &&& y) ^^^ (x &&& z) ^^^ (y &&& z)

def choice (x y z : BitVec n) : BitVec n := (x &&& y) ^^^ (~~~x &&& z)

structure Extension (word : Role → Int → BitVec n) (i : Int) : Prop where
  smallSigma0 : word .smallSigma0 i = smallSigma0 (word .w (i - 15))
  smallSigma1 : word .smallSigma1 i = smallSigma1 (word .w (i - 2))
  w : word .w i = word .smallSigma1 i + word .w (i - 7) + word .smallSigma0 i + word .w (i - 16)
  wCarries : Carries
    [word .smallSigma1 i, word .w (i - 7), word .smallSigma0 i, word .w (i - 16)]
    (word .wCarry i) (word .wCarry2 i)

structure Round (word : Role → Int → BitVec n) (i : Int) : Prop where
  bigSigma0 : word .bigSigma0 i = bigSigma0 (word .a (i - 1))
  bigSigma1 : word .bigSigma1 i = bigSigma1 (word .e (i - 1))
  maj : word .maj i = majority (word .a (i - 1)) (word .a (i - 2)) (word .a (i - 3))
  ch : word .ch i = choice (word .e (i - 1)) (word .e (i - 2)) (word .e (i - 3))
  extension : 16 ≤ i → Extension word i
  t : word .t i = word .e (i - 4) + word .bigSigma1 i + word .ch i + word .k i + word .w i
  tCarries : Carries [word .e (i - 4), word .bigSigma1 i, word .ch i, word .k i, word .w i]
    (word .tCarry i) (word .tCarry2 i)
  e : word .e i = word .a (i - 4) + word .t i
  eCarry : Carry [word .a (i - 4), word .t i] (word .eCarry i)
  a : word .a i = word .t i + word .bigSigma0 i + word .maj i
  aCarries : Carries [word .t i, word .bigSigma0 i, word .maj i] (word .aCarry i) (word .aCarry2 i)

end StepFunction

-- ---------------------------------------------------------------------------
-- Operations on words
-- ---------------------------------------------------------------------------

namespace Operation

variable {ν : Bit → Bool}

theorem holds_iff (hz : ∀ b : Bit, b.isZero = true → ν b = false) (o : Operation) :
    o.Holds n ν ↔ ∀ j < n, (o.outputs.map (·.value n ν)).map (·.getLsbD j) =
      o.gate.evaluate ((o.inputs.map (·.value n ν)).map (·.getLsbD j)) := by
  have hmap (vs : List View) (j : Nat) (hj : j < n) :
      (vs.map (·.value n ν)).map (·.getLsbD j) = (vs.map (·.bit n j)).map ν := by
    simp only [List.map_map]
    exact List.map_congr_left fun v _ => v.getLsbD_value hz hj
  unfold Holds
  refine forall₂_congr fun j hj => ?_
  rw [hmap _ j hj, hmap _ j hj]

theorem holds_xor3 (hz : ∀ b : Bit, b.isZero = true → ν b = false) (i : Int) (r : Role)
    (x y z w : View) : Operation.Holds n ν ⟨.xor3, i, r, [x, y, z], [w]⟩ ↔
      w.value n ν = x.value n ν ^^^ y.value n ν ^^^ z.value n ν := by
  rw [holds_iff hz]
  simp [Gate.evaluate, Gate.write, Gate.width, Gate.leading, BitVec.eq_of_getLsbD_eq_iff]

theorem holds_maj (hz : ∀ b : Bit, b.isZero = true → ν b = false) (i : Int) (r : Role)
    (x y z w : View) : Operation.Holds n ν ⟨.maj, i, r, [x, y, z], [w]⟩ ↔
      w.value n ν = StepFunction.majority (x.value n ν) (y.value n ν) (z.value n ν) := by
  rw [holds_iff hz]
  simp only [Gate.evaluate, Gate.write, Gate.width, Gate.leading, StepFunction.majority,
    BitVec.eq_of_getLsbD_eq_iff, List.map_cons, List.map_nil, List.getD_cons_zero,
    List.getD_cons_succ, List.replicate_zero, List.cons.injEq, and_true, BitVec.getLsbD_xor,
    BitVec.getLsbD_and]
  refine forall₂_congr fun j _ => ?_
  cases (x.value n ν).getLsbD j <;> cases (y.value n ν).getLsbD j <;>
    cases (z.value n ν).getLsbD j <;> simp

theorem holds_ch (hz : ∀ b : Bit, b.isZero = true → ν b = false) (i : Int) (r : Role)
    (x y z w : View) : Operation.Holds n ν ⟨.ch, i, r, [x, y, z], [w]⟩ ↔
      w.value n ν = StepFunction.choice (x.value n ν) (y.value n ν) (z.value n ν) := by
  rw [holds_iff hz]
  simp only [Gate.evaluate, Gate.write, Gate.width, Gate.leading, StepFunction.choice,
    BitVec.eq_of_getLsbD_eq_iff, List.map_cons, List.map_nil, List.getD_cons_zero,
    List.getD_cons_succ, List.replicate_zero, List.cons.injEq, and_true, BitVec.getLsbD_xor,
    BitVec.getLsbD_and, BitVec.getLsbD_not]
  refine forall₂_congr fun j hj => ?_
  cases (x.value n ν).getLsbD j <;> simp [hj]

theorem count_column (ws : List (BitVec n)) (j : Nat) :
    (ws.map (·.getLsbD j)).count true = columnSum ws j := by
  simp [List.count, columnSum, List.countP_map, Function.comp_def]

theorem holds_add (hz : ∀ b : Bit, b.isZero = true → ν b = false) (i : Int) (r : Role)
    {m : Nat} (hm : (Gate.add m).width = 3) (vs : List View) (hl : vs.length ≤ 5) (c d w : Nat) :
    Operation.Holds n ν ⟨.add m, i, r, vs ++ [.raised c 1, .raised d 2],
        [.whole d, .whole c, .whole w]⟩ ↔
      wordValue n ν w = wordSum (vs.map (·.value n ν)) ∧
        Carries (vs.map (·.value n ν)) (wordValue n ν c) (wordValue n ν d) := by
  have hcounted : (vs ++ [View.raised c 1, .raised d 2]).map (·.value n ν) =
      counted (vs.map (·.value n ν)) (wordValue n ν c) (wordValue n ν d) := by
    rw [List.map_append]
    rfl
  have hl : (vs.map (·.value n ν)).length ≤ 5 := by rwa [List.length_map]
  simp only [holds_iff hz, Gate.evaluate, Gate.write, hm, hcounted, count_column, Gate.digits,
    List.map_cons, List.map_nil, View.value_whole, List.cons.injEq, and_true]
  constructor
  · intro h
    have hc : Carries _ (wordValue n ν c) (wordValue n ν d) := fun j hj => ⟨(h j hj).2.1, (h j hj).1⟩
    exact ⟨(eq_wordSum_iff hc hl).mpr fun j hj => (h j hj).2.2, hc⟩
  · rintro ⟨hw, hc⟩ j hj
    exact ⟨(hc j hj).2, (hc j hj).1, (eq_wordSum_iff hc hl).mp hw j hj⟩

theorem holds_add_short (hz : ∀ b : Bit, b.isZero = true → ν b = false) (i : Int) (r : Role)
    {m : Nat} (hm : (Gate.add m).width = 2) (vs : List View) (hl : vs.length ≤ 2) (c w : Nat) :
    Operation.Holds n ν ⟨.add m, i, r, vs ++ [.raised c 1], [.whole c, .whole w]⟩ ↔
      wordValue n ν w = wordSum (vs.map (·.value n ν)) ∧
        Carry (vs.map (·.value n ν)) (wordValue n ν c) := by
  have hcounted : (vs ++ [View.raised c 1]).map (·.value n ν) =
      vs.map (·.value n ν) ++ [wordValue n ν c <<< 1] := by
    rw [List.map_append]
    rfl
  have hl2 : (vs.map (·.value n ν)).length ≤ 2 := by rwa [List.length_map]
  have hl5 : (vs.map (·.value n ν)).length ≤ 5 := Nat.le_trans hl2 (by decide)
  simp only [holds_iff hz, Gate.evaluate, Gate.write, hm, hcounted, count_column, Gate.digits,
    List.map_cons, List.map_nil, View.value_whole, List.cons.injEq, and_true]
  constructor
  · intro h
    have hc : Carry _ (wordValue n ν c) := fun j hj => (h j hj).1
    refine ⟨(eq_wordSum_iff ((carries_zero hl2).mpr hc) hl5).mpr fun j hj => ?_, hc⟩
    rw [columnSum_counted_zero]
    exact (h j hj).2
  · rintro ⟨hw, hc⟩ j hj
    have hlow := (eq_wordSum_iff ((carries_zero hl2).mpr hc) hl5).mp hw j hj
    rw [columnSum_counted_zero] at hlow
    exact ⟨hc j hj, hlow⟩

end Operation

/-- The number of positive words of a sum that defines a word of the role. -/
def Role.addends : Role → Nat
  | .w => 4
  | .t => 5
  | .e => 2
  | _ => 3

-- ---------------------------------------------------------------------------
-- Operations of a round
-- ---------------------------------------------------------------------------

namespace Topology

open StepFunction (Round Extension)

variable {ν : Bit → Bool} {index : Role → Int → Nat} {i : Int}

@[simp] theorem value_rotation (ν : Bit → Bool) (w k : Nat) :
    (rotation n w k).value n ν = (wordValue n ν w).rotateRight k := by
  rw [rotation, View.value]
  exact BitVec.rotateRight_mod_eq_rotateRight

def back (index : Role → Int → Nat) (i : Int) (r : Role) (rounds : Nat) : Nat :=
  index r (i - rounds)

theorem back_zero (index : Role → Int → Nat) (i : Int) (r : Role) : back index i r 0 = index r i :=
  congrArg (index r) (Int.sub_zero i)

theorem messageOperations_hold (hz : ∀ b : Bit, b.isZero = true → ν b = false) :
    (∀ o ∈ messageOperations (back index i) n i, o.Holds n ν) ↔
      Extension (fun r k => wordValue n ν (index r k)) i := by
  have hw := Operation.holds_add (n := n) hz i .w (m := 6) (by decide)
    [.whole (index .smallSigma1 i), .whole (back index i .w 7), .whole (index .smallSigma0 i),
      .whole (back index i .w 16)] (by simp)
    (index .wCarry i) (index .wCarry2 i) (index .w i)
  simp only [List.cons_append, List.nil_append, List.map_cons, List.map_nil, View.value_whole] at hw
  simp only [messageOperations, xorOf, List.forall_mem_cons, Operation.holds_xor3 hz, back_zero, hw,
    value_rotation, View.value_whole, View.value_lowered]
  constructor
  · rintro ⟨h1, h2, ⟨h3, h4⟩, -⟩
    refine ⟨h1, h2, ?_, h4⟩
    rw [h3]
    simp [wordSum, BitVec.add_assoc, back]
  · rintro ⟨h1, h2, h3, h4⟩
    refine ⟨h1, h2, ⟨?_, h4⟩, fun _ h => absurd h List.not_mem_nil⟩
    rw [h3]
    simp [wordSum, BitVec.add_assoc, back]

theorem functionOperations_hold (hz : ∀ b : Bit, b.isZero = true → ν b = false) :
    let word r k := wordValue n ν (index r k)
    (∀ o ∈ functionOperations (back index i) n i, o.Holds n ν) ↔
      word .bigSigma0 i = StepFunction.bigSigma0 (word .a (i - 1)) ∧
        word .bigSigma1 i = StepFunction.bigSigma1 (word .e (i - 1)) ∧
        word .maj i =
          StepFunction.majority (word .a (i - 1)) (word .a (i - 2)) (word .a (i - 3)) ∧
        word .ch i = StepFunction.choice (word .e (i - 1)) (word .e (i - 2)) (word .e (i - 3)) := by
  simp only [functionOperations, xorOf, List.forall_mem_cons, Operation.holds_xor3 hz,
    Operation.holds_maj hz, Operation.holds_ch hz, back_zero, value_rotation, View.value_whole]
  constructor
  · rintro ⟨h1, h2, h3, h4, -⟩
    exact ⟨h1, h2, h3, h4⟩
  · rintro ⟨h1, h2, h3, h4⟩
    exact ⟨h1, h2, h3, h4, fun _ h => absurd h List.not_mem_nil⟩

theorem registerOperations_hold (hz : ∀ b : Bit, b.isZero = true → ν b = false) :
    let word r k := wordValue n ν (index r k)
    (∀ o ∈ registerOperations (back index i) i, o.Holds n ν) ↔
      (word .t i = word .e (i - 4) + word .bigSigma1 i + word .ch i + word .k i + word .w i ∧
        Carries [word .e (i - 4), word .bigSigma1 i, word .ch i, word .k i, word .w i]
          (word .tCarry i) (word .tCarry2 i)) ∧
      (word .e i = word .a (i - 4) + word .t i ∧
        Carry [word .a (i - 4), word .t i] (word .eCarry i)) ∧
      (word .a i = word .t i + word .bigSigma0 i + word .maj i ∧
        Carries [word .t i, word .bigSigma0 i, word .maj i] (word .aCarry i) (word .aCarry2 i)) := by
  have ht := Operation.holds_add (n := n) hz i .t (m := 7) (by decide)
    [.whole (back index i .e 4), .whole (index .bigSigma1 i), .whole (index .ch i),
      .whole (index .k i), .whole (index .w i)] (by simp)
    (index .tCarry i) (index .tCarry2 i) (index .t i)
  have he := Operation.holds_add_short (n := n) hz i .e (m := 3) (by decide)
    [.whole (back index i .a 4), .whole (index .t i)] (by simp)
    (index .eCarry i) (index .e i)
  have ha := Operation.holds_add (n := n) hz i .a (m := 5) (by decide)
    [.whole (index .t i), .whole (index .bigSigma0 i), .whole (index .maj i)] (by simp)
    (index .aCarry i) (index .aCarry2 i) (index .a i)
  simp only [List.cons_append, List.nil_append, List.map_cons, List.map_nil, View.value_whole,
    wordSum, BitVec.add_zero, ← BitVec.add_assoc] at ht he ha
  simp only [registerOperations, List.forall_mem_cons, back_zero, ht, he, ha]
  constructor
  · rintro ⟨h1, h2, h3, -⟩
    exact ⟨h1, h2, h3⟩
  · rintro ⟨h1, h2, h3⟩
    exact ⟨h1, h2, h3, fun _ h => absurd h List.not_mem_nil⟩

/-- The columns of the operations of a round hold if and only if the round holds of
words. -/
theorem operationsOfRound_hold (hz : ∀ b : Bit, b.isZero = true → ν b = false) :
    (∀ o ∈ operationsOfRound (back index i) n i, o.Holds n ν) ↔
      Round (fun r k => wordValue n ν (index r k)) i := by
  have hmessage : (∀ o ∈ if 16 ≤ i then messageOperations (back index i) n i else [],
      o.Holds n ν) ↔ (16 ≤ i → Extension (fun r k => wordValue n ν (index r k)) i) := by
    by_cases hi : 16 ≤ i
    · rw [if_pos hi, messageOperations_hold hz]
      exact ⟨fun h _ => h, fun h => h hi⟩
    · rw [if_neg hi]
      exact ⟨fun _ h => absurd h hi, fun _ _ h => nomatch h⟩
  simp only [operationsOfRound, List.forall_mem_append, functionOperations_hold hz, hmessage,
    registerOperations_hold hz]
  constructor
  · rintro ⟨⟨⟨h1, h2, h3, h4⟩, h5⟩, ⟨h6, h7⟩, ⟨h8, h9⟩, h10, h11⟩
    exact ⟨h1, h2, h3, h4, h5, h6, h7, h8, h9, h10, h11⟩
  · rintro ⟨h1, h2, h3, h4, h5, h6, h7, h8, h9, h10, h11⟩
    exact ⟨⟨⟨h1, h2, h3, h4⟩, h5⟩, ⟨h6, h7⟩, ⟨h8, h9⟩, h10, h11⟩

theorem sumsOfRound_hold (h : Round (fun r k => wordValue n ν (index r k)) i) :
    ∀ s ∈ sumsOfRound (back index i) i,
      wordSum (s.positive.map (wordValue n ν)) = wordSum (s.negative.map (wordValue n ν)) := by
  have hback (r : Role) (m : Nat) :
      wordValue n ν (back index i r m) = wordValue n ν (index r (i - m)) := rfl
  have hmessage : ∀ s ∈ if 16 ≤ i then [SumEquation.mk .w i
      [back index i .smallSigma1 0, back index i .w 7, back index i .smallSigma0 0,
        back index i .w 16] [back index i .w 0]] else [],
      wordSum (s.positive.map (wordValue n ν)) = wordSum (s.negative.map (wordValue n ν)) := by
    split
    · rename_i hi
      rw [List.forall_mem_singleton]
      simp only [List.map_cons, List.map_nil, wordSum, BitVec.add_zero, back_zero, hback,
        ← BitVec.add_assoc]
      exact (h.extension hi).w.symm
    · exact fun _ h => absurd h List.not_mem_nil
  simp only [sumsOfRound, List.forall_mem_append, List.forall_mem_cons]
  refine ⟨hmessage, ?_, ?_, ?_, fun _ h => absurd h List.not_mem_nil⟩
  all_goals
    simp only [List.map_cons, List.map_nil, wordSum, BitVec.add_zero, back_zero, hback,
      ← BitVec.add_assoc]
  · exact h.t.symm
  · exact h.e.symm
  · exact h.a.symm

theorem inputs_operationsOfRound (word : Role → Nat → Nat) (size : Nat) (i : Int) :
    ∀ o ∈ operationsOfRound word size i, o.inputs.length = o.gate.arity := by
  have hmessage : ∀ o ∈ if 16 ≤ i then messageOperations word size i else [],
      o.inputs.length = o.gate.arity := by
    split
    · simp only [messageOperations, xorOf, List.forall_mem_cons]
      exact ⟨rfl, rfl, rfl, List.forall_mem_nil _⟩
    · exact List.forall_mem_nil _
  simp only [operationsOfRound, List.forall_mem_append]
  refine ⟨⟨?_, hmessage⟩, ?_⟩
  · simp only [functionOperations, xorOf, List.forall_mem_cons]
    exact ⟨rfl, rfl, rfl, rfl, List.forall_mem_nil _⟩
  · simp only [registerOperations, List.forall_mem_cons]
    exact ⟨rfl, rfl, rfl, List.forall_mem_nil _⟩

theorem outputs_operationsOfRound (word : Role → Nat → Nat) (size : Nat) (i : Int) :
    ∀ o ∈ operationsOfRound word size i, o.outputs.length = o.gate.width := by
  have hmessage : ∀ o ∈ if 16 ≤ i then messageOperations word size i else [],
      o.outputs.length = o.gate.width := by
    split
    · simp only [messageOperations, xorOf, List.forall_mem_cons]
      exact ⟨rfl, rfl, show 3 = (Gate.add 6).width by decide, fun _ h => absurd h List.not_mem_nil⟩
    · exact fun _ h => absurd h List.not_mem_nil
  simp only [operationsOfRound, List.forall_mem_append]
  refine ⟨⟨?_, hmessage⟩, ?_⟩
  · simp only [functionOperations, xorOf, List.forall_mem_cons]
    exact ⟨rfl, rfl, rfl, rfl, fun _ h => absurd h List.not_mem_nil⟩
  · simp only [registerOperations, List.forall_mem_cons]
    exact ⟨show 3 = (Gate.add 7).width by decide, show 2 = (Gate.add 3).width by decide,
      show 3 = (Gate.add 5).width by decide, fun _ h => absurd h List.not_mem_nil⟩

theorem shape_sumsOfRound (word : Role → Nat → Nat) (i : Int) :
    ∀ s ∈ sumsOfRound word i, s.positive.length = s.role.addends ∧ s.negative.length = 1 := by
  have hmessage : ∀ s ∈ if 16 ≤ i then [SumEquation.mk .w i
      [word .smallSigma1 0, word .w 7, word .smallSigma0 0, word .w 16] [word .w 0]] else [],
      s.positive.length = s.role.addends ∧ s.negative.length = 1 := by
    split
    · exact List.forall_mem_singleton.mpr ⟨rfl, rfl⟩
    · exact fun _ h => absurd h List.not_mem_nil
  simp only [sumsOfRound, List.forall_mem_append, List.forall_mem_cons]
  exact ⟨hmessage, ⟨rfl, rfl⟩, ⟨rfl, rfl⟩, ⟨rfl, rfl⟩, fun _ h => absurd h List.not_mem_nil⟩

end Topology

end ShaDiff
