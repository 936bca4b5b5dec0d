import Mathlib.Algebra.BigOperators.Ring.Finset
import Mathlib.Data.Int.ModEq
import Mathlib.Data.Nat.Bitwise
import Mathlib.Tactic.Ring
import ShaDiff.Proofs.Sum.Words

/-!
# Integers and grounded words

A grounded word differs at the digits of its support, and there the signs are free. With the
digits of positive sign as a number, the signed difference is twice that number less the
support (`signed?_withSigns`), and each choice of signs is of this form (`exists_signs`). Twice
the number leaves its top digit open, modulo two to the number of bits, so the sign there can be
that of the pattern (`ofInteger?_eq`). So a word is found for each value which some choice of
signs sums up to (`ofInteger?_exact`).
-/

namespace ShaDiff

namespace Condition

theorem difference?_of_signed?_zero {c : Condition} (h : c.signed? = some 0) :
    c.difference? = some false := by
  have key : ∀ m : BitVec 4, (Condition.mk m).signed? = some 0 →
      (Condition.mk m).difference? = some false := by decide
  exact key c.mask h

theorem signed?_u : u.signed? = some 1 := by decide

theorem signed?_n : n.signed? = some (-1) := by decide

/-- A grounded condition differs nowhere or has just one pair. -/
theorem grounded_iff {c : Condition} : c.grounded = true ↔ c.signed? = some 0 ∨ c = u ∨ c = n := by
  have key : ∀ m : BitVec 4, (Condition.mk m).grounded = true ↔
      (Condition.mk m).signed? = some 0 ∨ Condition.mk m = u ∨ Condition.mk m = n := by decide
  exact key c.mask

theorem signed?_zero_iff {c : Condition} (h : c.grounded = true) :
    c.signed? = some 0 ↔ c.difference? = some false := by
  have key : ∀ m : BitVec 4, (Condition.mk m).grounded = true →
      ((Condition.mk m).signed? = some 0 ↔ (Condition.mk m).difference? = some false) := by decide
  exact key c.mask h

theorem signed?_eq_none {c : Condition} (h : c.grounded = false) : c.signed? = none := by
  have key : ∀ m : BitVec 4, (Condition.mk m).grounded = false → (Condition.mk m).signed? = none := by
    decide
  exact key c.mask h

end Condition

namespace Modular

open ShaDiff.Sum (isGrounded)

/-- Whether a word is grounded and differs at the digits of a number. -/
inductive Supported : List Condition → Nat → Prop
  | nil : Supported [] 0
  | same {c : Condition} {cs : List Condition} {t : Nat} (hc : c.signed? = some 0)
      (h : Supported cs t) : Supported (c :: cs) (2 * t)
  | differs {c : Condition} {cs : List Condition} {t : Nat} (hc : c = .u ∨ c = .n)
      (h : Supported cs t) : Supported (c :: cs) (2 * t + 1)

variable {word cs : List Condition} {c : Condition} {b s t value : Nat}

theorem modulus_eq_two_pow {size : Nat} (h : size ≤ bitsMax) : modulus size = 2 ^ size := by
  rw [modulus, Nat.min_eq_left h, Nat.one_shiftLeft]

/-- The sum of the powers at which a word has a difference, each with the sign that is chosen
for it. -/
def signedSum (word : List Condition) (positive : Nat → Bool) : Int :=
  ∑ j ∈ Finset.range word.length,
    if word[j]?.bind (·.difference?) = some true then (if positive j then 2 ^ j else -2 ^ j) else 0

theorem signedSum_cons (c : Condition) (cs : List Condition) (positive : Nat → Bool) :
    signedSum (c :: cs) positive =
      (if c.difference? = some true then (if positive 0 then 1 else -1) else 0) +
        2 * signedSum cs fun j => positive (j + 1) := by
  unfold signedSum
  rw [List.length_cons, Finset.sum_range_succ', add_comm, Finset.mul_sum]
  congr 1
  refine Finset.sum_congr rfl fun j _ => ?_
  simp only [List.getElem?_cons_succ, pow_succ']
  split
  · split <;> ring
  · rfl

-- ---------------------------------------------------------------------------
-- Supports
-- ---------------------------------------------------------------------------

theorem support?_of_supported (h : Supported word s) : support? word = some s := by
  induction h with
  | nil => rfl
  | same hc _ ih => simp [support?, hc, ih]
  | differs hc _ ih =>
    rcases hc with rfl | rfl
    · simp [support?, ih, Condition.signed?_u, Nat.add_comm]
    · simp [support?, ih, Condition.signed?_n, Nat.add_comm]

theorem Supported.isGrounded (h : Supported word s) : isGrounded word = true := by
  induction h with
  | nil => rfl
  | same hc _ ih => exact Bool.and_eq_true_iff.mpr ⟨Condition.grounded_iff.mpr (.inl hc), ih⟩
  | differs hc _ ih => exact Bool.and_eq_true_iff.mpr ⟨Condition.grounded_iff.mpr (.inr hc), ih⟩

theorem exists_supported (h : isGrounded word = true) : ∃ s, Supported word s := by
  induction word with
  | nil => exact ⟨0, .nil⟩
  | cons c cs ih =>
    obtain ⟨hc, hcs⟩ := Bool.and_eq_true_iff.mp h
    obtain ⟨t, ht⟩ := ih hcs
    rcases Condition.grounded_iff.mp hc with hzero | hdiffers
    · exact ⟨_, .same hzero ht⟩
    · exact ⟨_, .differs hdiffers ht⟩

theorem support?_eq_none (h : isGrounded word = false) : support? word = none := by
  induction word with
  | nil => cases h
  | cons c cs ih =>
    rcases Bool.and_eq_false_iff.mp h with hc | hcs
    · simp [support?, Condition.signed?_eq_none hc]
    · simp [support?, ih hcs]

theorem Supported.lt_two_pow (h : Supported word s) : s < 2 ^ word.length := by
  induction h with
  | nil => simp
  | same _ _ ih =>
    rw [List.length_cons, pow_succ]
    omega
  | differs _ _ ih =>
    rw [List.length_cons, pow_succ]
    omega

/-- The support has a digit just where the word has a difference. -/
theorem Supported.testBit_iff (h : Supported word s) (j : Nat) :
    s.testBit j = true ↔ word[j]? = some .u ∨ word[j]? = some .n := by
  induction h generalizing j with
  | nil => simp
  | @same c _ t hc _ ih =>
    cases j with
    | zero =>
      have hu : c ≠ .u := by
        rintro rfl
        cases hc
      have hn : c ≠ .n := by
        rintro rfl
        cases hc
      simp [hu, hn]
    | succ j => simpa [Nat.testBit_succ] using ih j
  | @differs c _ t hc _ ih =>
    cases j with
    | zero => simpa using hc
    | succ j =>
      have hhalf : (2 * t + 1) / 2 = t := by omega
      simpa [Nat.testBit_succ, hhalf] using ih j

-- ---------------------------------------------------------------------------
-- Signs
-- ---------------------------------------------------------------------------

theorem or_eq_right_iff : b ||| s = s ↔ ∀ j, b.testBit j = true → s.testBit j = true := by
  constructor
  · intro h j hj
    rw [← h, Nat.testBit_or, hj, Bool.true_or]
  · intro h
    apply Nat.eq_of_testBit_eq
    intro j
    rw [Nat.testBit_or]
    cases hj : b.testBit j with
    | false => rfl
    | true => simp [h j hj]

theorem or_double_iff : b ||| 2 * t = 2 * t ↔ b % 2 = 0 ∧ b / 2 ||| t = t := by
  have hhalf : (b ||| 2 * t) / 2 = b / 2 ||| t := by
    rw [Nat.or_div_two, Nat.mul_div_cancel_left t Nat.two_pos]
  have hdigit : (b ||| 2 * t) % 2 = 1 ↔ b % 2 = 1 ∨ 2 * t % 2 = 1 := Nat.or_mod_two_eq_one
  omega

theorem or_double_succ_iff : b ||| (2 * t + 1) = 2 * t + 1 ↔ b / 2 ||| t = t := by
  have hhalf : (b ||| (2 * t + 1)) / 2 = b / 2 ||| t := by
    rw [Nat.or_div_two, show (2 * t + 1) / 2 = t by omega]
  have hdigit : (b ||| (2 * t + 1)) % 2 = 1 ↔ b % 2 = 1 ∨ (2 * t + 1) % 2 = 1 :=
    Nat.or_mod_two_eq_one
  omega

/-- With signs at the digits of a number, the signed difference is twice the number less the
support. -/
theorem signed?_withSigns (h : Supported word s) (hb : b ||| s = s) :
    signed? (withSigns word b) = some (2 * (b : Int) - s) := by
  induction h generalizing b with
  | nil =>
    obtain rfl : b = 0 := by simpa using hb
    rfl
  | @same c cs t hc _ ih =>
    obtain ⟨heven, hhalf⟩ := or_double_iff.mp hb
    simp only [withSigns, hc, if_true, signed?, ih hhalf, Option.bind_eq_bind, Option.bind_some,
      Option.pure_def, Option.some.injEq]
    push_cast
    omega
  | @differs c cs t hc _ ih =>
    have hhalf := or_double_succ_iff.mp hb
    have hne : c.signed? ≠ some 0 := by
      rcases hc with rfl | rfl <;> decide
    simp only [withSigns, hne, if_false, signed?, ih hhalf]
    split
    · simp only [Condition.signed?_u, Option.bind_eq_bind, Option.bind_some, Option.pure_def,
        Option.some.injEq]
      push_cast
      omega
    · simp only [Condition.signed?_n, Option.bind_eq_bind, Option.bind_some, Option.pure_def,
        Option.some.injEq]
      push_cast
      omega

theorem signedSum_testBit (h : Supported word s) (hb : b ||| s = s) :
    signedSum word b.testBit = 2 * (b : Int) - s := by
  have hnext (b : Nat) : (fun j => b.testBit (j + 1)) = (b / 2).testBit := by
    funext j
    rw [Nat.testBit_succ]
  induction h generalizing b with
  | nil =>
    obtain rfl : b = 0 := by simpa using hb
    rfl
  | same hc _ ih =>
    obtain ⟨heven, hhalf⟩ := or_double_iff.mp hb
    rw [signedSum_cons, hnext, ih hhalf, Condition.difference?_of_signed?_zero hc]
    simp only [Option.some.injEq, Bool.false_eq_true, if_false]
    push_cast
    omega
  | @differs c _ t hc _ ih =>
    have hhalf := or_double_succ_iff.mp hb
    have hdiffers : c.difference? = some true := by
      rcases hc with rfl | rfl <;> decide
    rw [signedSum_cons, hnext, ih hhalf, if_pos hdiffers, Nat.testBit_zero]
    simp only [decide_eq_true_eq]
    split
    · push_cast
      omega
    · push_cast
      omega

theorem exists_signs (h : Supported word s) (positive : Nat → Bool) :
    ∃ b, b ||| s = s ∧ signedSum word positive = 2 * (b : Int) - s := by
  induction h generalizing positive with
  | nil => exact ⟨0, rfl, rfl⟩
  | @same _ _ t hc _ ih =>
    obtain ⟨b, hb, hsum⟩ := ih fun j => positive (j + 1)
    refine ⟨2 * b, or_double_iff.mpr ⟨by omega, by simpa using hb⟩, ?_⟩
    rw [signedSum_cons, hsum, Condition.difference?_of_signed?_zero hc]
    simp only [Option.some.injEq, Bool.false_eq_true, if_false]
    push_cast
    omega
  | @differs c _ t hc _ ih =>
    obtain ⟨b, hb, hsum⟩ := ih fun j => positive (j + 1)
    have hdiffers : c.difference? = some true := by
      rcases hc with rfl | rfl <;> decide
    have hhalf : (2 * b + (positive 0).toNat) / 2 = b := by
      have := (positive 0).toNat_lt
      omega
    refine ⟨2 * b + (positive 0).toNat, or_double_succ_iff.mpr (by rwa [hhalf]), ?_⟩
    rw [signedSum_cons, hsum, if_pos hdiffers]
    cases positive 0
    · simp
      omega
    · simp
      omega

theorem getElem?_withSigns (word : List Condition) (b j : Nat) :
    (withSigns word b)[j]? =
      word[j]?.map fun c => if c.signed? = some 0 then c else if b.testBit j then .u else .n := by
  induction word generalizing b j with
  | nil => simp [withSigns]
  | cons c cs ih =>
    cases j with
    | zero => simp [withSigns, Nat.testBit_zero]
    | succ j => simp [withSigns, ih, Nat.testBit_succ]

theorem length_withSigns (word : List Condition) (b : Nat) :
    (withSigns word b).length = word.length := by
  induction word generalizing b with
  | nil => rfl
  | cons c cs ih => simp [withSigns, ih]

-- ---------------------------------------------------------------------------
-- The top digit
-- ---------------------------------------------------------------------------

/-- A number with the sign that a word has at the top, in place of its own digit there. -/
def withTop (word : List Condition) (b : Nat) : Nat :=
  b % 2 ^ (word.length - 1) |||
    if word.getLast? = some .u then 2 ^ (word.length - 1) else 0

theorem testBit_withTop (word : List Condition) (b j : Nat) :
    (withTop word b).testBit j = true ↔
      j + 1 < word.length ∧ b.testBit j = true ∨ j + 1 = word.length ∧ word[j]? = some .u := by
  cases word with
  | nil => simp [withTop, Nat.mod_one]
  | cons c cs =>
    have htop : (c :: cs).getLast? = (c :: cs)[cs.length]? := by
      simp [List.getLast?_eq_getElem?]
    simp only [withTop, htop, List.length_cons, Nat.add_sub_cancel, Nat.testBit_or,
      Nat.testBit_mod_two_pow, Bool.or_eq_true, Bool.and_eq_true, decide_eq_true_eq,
      Nat.add_lt_add_iff_right, Nat.add_right_cancel_iff]
    apply or_congr_right
    split
    · next hu =>
      simp only [Nat.testBit_two_pow, decide_eq_true_eq, eq_comm (a := cs.length)]
      constructor
      · rintro rfl
        exact ⟨rfl, hu⟩
      · exact And.left
    · next hu =>
      simp only [Nat.zero_testBit, Bool.false_eq_true, false_iff, not_and]
      rintro rfl
      exact hu

theorem withTop_withTop (word : List Condition) (b : Nat) :
    withTop word (withTop word b) = withTop word b := by
  apply Nat.eq_of_testBit_eq
  intro j
  rw [Bool.eq_iff_iff, testBit_withTop, testBit_withTop]
  constructor
  · rintro (⟨hlt, h | ⟨heq, -⟩⟩ | h)
    · exact .inl h
    · omega
    · exact .inr h
  · rintro (⟨hlt, h⟩ | h)
    · exact .inl ⟨hlt, .inl ⟨hlt, h⟩⟩
    · exact .inr h

theorem withTop_congr {a : Nat} (h : a ≡ b [MOD 2 ^ (word.length - 1)]) :
    withTop word a = withTop word b := by
  unfold withTop
  rw [h]

theorem two_mul_withTop (word : List Condition) (b : Nat) :
    2 * withTop word b ≡ 2 * b [MOD 2 ^ word.length] := by
  cases word with
  | nil => exact Nat.modEq_one
  | cons c cs =>
    have hlow : withTop (c :: cs) b ≡ b [MOD 2 ^ cs.length] := by
      unfold withTop
      simp only [List.length_cons, Nat.add_sub_cancel]
      rw [Nat.ModEq, Nat.or_mod_two_pow, Nat.mod_mod]
      split <;> simp
    rw [List.length_cons, pow_succ']
    exact hlow.mul_left' 2

theorem Supported.withTop_or (h : Supported word s) (hb : b ||| s = s) :
    withTop word b ||| s = s := by
  apply or_eq_right_iff.mpr
  intro j hj
  rcases (testBit_withTop word b j).mp hj with ⟨-, hj⟩ | ⟨-, hu⟩
  · exact or_eq_right_iff.mp hb j hj
  · exact (h.testBit_iff j).mpr (.inl hu)

-- ---------------------------------------------------------------------------
-- Words of a value
-- ---------------------------------------------------------------------------

theorem ofInteger?_eq (h : Supported word s) (hmax : word.length ≤ bitsMax) :
    ofInteger? value word =
      if (value + s) % 2 ^ word.length % 2 = 0 ∧
          withTop word ((value + s) % 2 ^ word.length / 2) ||| s = s then
        some (withSigns word (withTop word ((value + s) % 2 ^ word.length / 2)))
      else none := by
  -- Half of the number has no top digit that could be in the way.
  have hhalf : (value + s) % 2 ^ word.length / 2 % 2 ^ (word.length - 1) =
      (value + s) % 2 ^ word.length / 2 := by
    apply Nat.mod_eq_of_lt
    have hlt := Nat.mod_lt (value + s) (Nat.two_pow_pos word.length)
    cases word with
    | nil => simp [Nat.mod_one]
    | cons c cs =>
      simp only [List.length_cons, Nat.add_sub_cancel, pow_succ] at hlt ⊢
      omega
  have hpositive : ((value + s) % 2 ^ word.length / 2 |||
      if word.getLast? = some .u then 1 <<< (word.length - 1) else 0) =
        withTop word ((value + s) % 2 ^ word.length / 2) := by
    rw [withTop, hhalf, Nat.one_shiftLeft]
  simp only [ofInteger?, support?_of_supported h, modulus_eq_two_pow hmax, Option.bind_eq_bind,
    Option.bind_some, Nat.mod_add_mod, hpositive, guard]
  split
  · next heven =>
    simp only [heven, true_and]
    split
    · simp
    · simp
  · next hodd => simp [hodd]

/-- A word is found just for a number whose digits are the signs that the word has. -/
theorem ofInteger?_eq_some (h : Supported word s) (hmax : word.length ≤ bitsMax)
    {w : List Condition} : ofInteger? value word = some w ↔ ∃ b, b ||| s = s ∧
      2 * b ≡ value + s [MOD 2 ^ word.length] ∧ withTop word b = b ∧ withSigns word b = w := by
  rw [ofInteger?_eq h hmax, Option.ite_none_right_eq_some, Option.some.injEq]
  constructor
  · rintro ⟨⟨heven, hb⟩, rfl⟩
    refine ⟨_, hb, ?_, withTop_withTop word _, rfl⟩
    calc 2 * withTop word ((value + s) % 2 ^ word.length / 2)
        ≡ 2 * ((value + s) % 2 ^ word.length / 2) [MOD 2 ^ word.length] := two_mul_withTop word _
      _ = (value + s) % 2 ^ word.length := by omega
      _ ≡ value + s [MOD 2 ^ word.length] := Nat.mod_modEq _ _
  · rintro ⟨b, hb, hmod, htop, rfl⟩
    have htwice : (value + s) % 2 ^ word.length = 2 * b % 2 ^ word.length := hmod.symm
    have hhalf : (value + s) % 2 ^ word.length % 2 = 0 ∧
        withTop word ((value + s) % 2 ^ word.length / 2) = b := by
      rw [htwice]
      cases word with
      | nil => exact ⟨by simp [Nat.mod_one], htop ▸ withTop_congr Nat.modEq_one⟩
      | cons c cs =>
        rw [List.length_cons, pow_succ', Nat.mul_mod_mul_left, Nat.mul_mod_right,
          Nat.mul_div_cancel_left _ Nat.two_pos]
        exact ⟨rfl, (withTop_congr (Nat.mod_modEq b _)).trans htop⟩
    rw [hhalf.2]
    exact ⟨⟨hhalf.1, hb⟩, rfl⟩

theorem twice_modEq_iff {m : Nat} : 2 * b ≡ value + s [MOD 2 ^ m] ↔
    2 * (b : Int) - s ≡ value [ZMOD 2 ^ m] := by
  rw [← Int.natCast_modEq_iff]
  push_cast
  constructor
  · intro h
    simpa using h.sub_right (s : Int)
  · intro h
    simpa using h.add_right (s : Int)

theorem isSome_ofInteger? (h : Supported word s) (hmax : word.length ≤ bitsMax) :
    (ofInteger? value word).isSome = true ↔
      ∃ positive, signedSum word positive ≡ value [ZMOD 2 ^ word.length] := by
  simp only [Option.isSome_iff_exists, ofInteger?_eq_some h hmax]
  constructor
  · rintro ⟨_, b, hb, hmod, -, -⟩
    exact ⟨b.testBit, by rwa [signedSum_testBit h hb, ← twice_modEq_iff]⟩
  · rintro ⟨positive, hsum⟩
    obtain ⟨b, hb, heq⟩ := exists_signs h positive
    rw [heq, ← twice_modEq_iff] at hsum
    exact ⟨_, withTop word b, h.withTop_or hb, (two_mul_withTop word b).trans hsum,
      withTop_withTop word b, rfl⟩

-- ---------------------------------------------------------------------------
-- The word that is found
-- ---------------------------------------------------------------------------

theorem Supported.grounded (h : Supported word s) {j : Nat} (hc : word[j]? = some c) :
    c.grounded = true :=
  List.all_eq_true.mp h.isGrounded c (List.mem_of_getElem? hc)

theorem map_difference?_withSigns (h : Supported word s) (b : Nat) :
    (withSigns word b).map (·.difference?) = word.map (·.difference?) := by
  apply List.ext_getElem?
  intro j
  rw [List.getElem?_map, List.getElem?_map, getElem?_withSigns]
  cases hc : word[j]? with
  | none => rfl
  | some c =>
    simp only [Option.map_some, Option.some.injEq]
    rcases Condition.grounded_iff.mp (h.grounded hc) with hzero | rfl | rfl
    · rw [if_pos hzero]
    · split
      · rfl
      · split <;> rfl
    · split
      · rfl
      · split <;> rfl

theorem withSigns_of_same (h : Supported word s) (b : Nat) {j : Nat}
    (hsame : word[j]?.bind (·.difference?) = some false) : (withSigns word b)[j]? = word[j]? := by
  obtain ⟨c, hc, hdifference⟩ := Option.bind_eq_some_iff.mp hsame
  have hzero := (Condition.signed?_zero_iff (h.grounded hc)).mpr hdifference
  simp [getElem?_withSigns, hc, hzero]

theorem withSigns_of_positive (h : Supported word s) {j : Nat}
    (hj : b.testBit j = true ↔ word[j]? = some .u) : (withSigns word b)[j]? = word[j]? := by
  rw [getElem?_withSigns]
  cases hc : word[j]? with
  | none => rfl
  | some c =>
    simp only [hc, Option.some.injEq] at hj
    simp only [Option.map_some, Option.some.injEq, hj]
    rcases Condition.grounded_iff.mp (h.grounded hc) with hzero | rfl | rfl
    · rw [if_pos hzero]
    · rfl
    · rfl

theorem getLast?_withSigns (h : Supported word s) (htop : withTop word b = b) :
    (withSigns word b).getLast? = word.getLast? := by
  rw [List.getLast?_eq_getElem?, List.getLast?_eq_getElem?, length_withSigns]
  cases word with
  | nil => rfl
  | cons c cs =>
    apply withSigns_of_positive h
    rw [← htop, testBit_withTop]
    simp

theorem toInteger?_withSigns (h : Supported word s) (hmax : word.length ≤ bitsMax)
    (hb : b ||| s = s) (hmod : 2 * b ≡ value + s [MOD 2 ^ word.length]) :
    toInteger? (withSigns word b) = some (value % 2 ^ word.length) := by
  have hvalue : (2 * (b : Int) - s) % (2 ^ word.length : Nat) = (value % 2 ^ word.length : Nat) := by
    push_cast
    exact twice_modEq_iff.mp hmod
  simp only [toInteger?, signed?_withSigns h hb, length_withSigns, modulus_eq_two_pow hmax,
    Option.map_some, hvalue, Int.toNat_natCast]

theorem exists_positive (word : List Condition) :
    ∃ b : Nat, ∀ j, b.testBit j = true ↔ word[j]? = some .u := by
  induction word with
  | nil => exact ⟨0, by simp⟩
  | cons c cs ih =>
    obtain ⟨b, hb⟩ := ih
    have hhalf : (2 * b + (c == .u).toNat) / 2 = b := by
      have := (c == .u).toNat_lt
      omega
    refine ⟨2 * b + (c == .u).toNat, fun j => ?_⟩
    cases j with
    | zero => cases hc : c == .u <;> simp_all
    | succ j => simpa [Nat.testBit_succ, hhalf] using hb j

theorem ofInteger?_toInteger? (h : Supported word s) (hmax : word.length ≤ bitsMax) :
    ∃ value, toInteger? word = some value ∧ ofInteger? value word = some word := by
  obtain ⟨b, hpositive⟩ := exists_positive word
  have hb : b ||| s = s :=
    or_eq_right_iff.mpr fun j hj => (h.testBit_iff j).mpr (.inl ((hpositive j).mp hj))
  have htop : withTop word b = b := by
    apply Nat.eq_of_testBit_eq
    intro j
    rw [Bool.eq_iff_iff, testBit_withTop, hpositive]
    constructor
    · rintro (⟨-, hu⟩ | ⟨-, hu⟩) <;> exact hu
    · intro hu
      have hlt := (List.getElem?_eq_some_iff.mp hu).1
      rcases Nat.lt_or_eq_of_le (Nat.succ_le_of_lt hlt) with hlt | heq
      · exact .inl ⟨hlt, hu⟩
      · exact .inr ⟨heq, hu⟩
  have hsame : withSigns word b = word :=
    List.ext_getElem? fun j => withSigns_of_positive h (hpositive j)
  let value := (2 * b + (2 ^ word.length - s)) % 2 ^ word.length
  have hmod : 2 * b ≡ value + s [MOD 2 ^ word.length] := by
    have hs := h.lt_two_pow
    calc 2 * b ≡ 2 * b + 2 ^ word.length [MOD 2 ^ word.length] := by simp [Nat.ModEq]
      _ = 2 * b + (2 ^ word.length - s) + s := by omega
      _ ≡ value + s [MOD 2 ^ word.length] := (Nat.mod_modEq _ _).symm.add_right s
  refine ⟨value, ?_, (ofInteger?_eq_some h hmax).mpr ⟨b, hb, hmod, htop, hsame⟩⟩
  have hinteger := toInteger?_withSigns h hmax hb hmod
  rwa [hsame, Nat.mod_mod] at hinteger

theorem toInteger?_modEq (hmax : word.length ≤ bitsMax) (hvalue : toInteger? word = some value)
    {x x' : BitVec word.length} (hfits : ∀ (j : Nat) c, word[j]? = some c →
      c.allows ⟨x.getLsbD j, x'.getLsbD j⟩ = true) :
    (value : Int) ≡ x.toNat - x'.toNat [ZMOD 2 ^ word.length] := by
  let pair (j : Nat) : Pair := ⟨x.getLsbD j, x'.getLsbD j⟩
  have hallow : Condition.Allow word ((List.range word.length).map pair) := by
    refine List.forall₂_iff_get.mpr ⟨by simp, fun j hj _ => ?_⟩
    simpa using hfits j _ (List.getElem?_eq_getElem hj)
  have hdifference : Sum.signedDifference ((List.range word.length).map pair) =
      (x.toNat : Int) - x'.toNat := by
    rw [Sum.signedDifference_eq, toNat_eq_weigh, toNat_eq_weigh]
  rw [toInteger?, Sum.signed?_of_allow hallow] at hvalue
  obtain ⟨d, hd, rfl⟩ := Option.map_eq_some_iff.mp hvalue
  obtain ⟨-, hd⟩ := Option.ite_none_right_eq_some.mp hd
  obtain rfl := Option.some.inj hd
  rw [hdifference, Int.toNat_of_nonneg (Int.emod_nonneg _ (Sum.modulus_pos _).ne'),
    modulus_eq_two_pow hmax]
  push_cast
  exact Int.mod_modEq _ _

/-- A word is found for a value just if the pattern is grounded and some choice of signs for its
differences sums up to the value. It differs where the pattern does, has the sign of the pattern
at the top and the value as its integer. A grounded word is found for its own integer, which is
the difference of the numbers that it is in any pair of instances. -/
theorem ofInteger?_exact (hmax : word.length ≤ bitsMax) :
    (∀ value, (ofInteger? value word).isSome = true ↔ isGrounded word = true ∧
        ∃ positive, signedSum word positive ≡ value [ZMOD 2 ^ word.length]) ∧
      (∀ value w, ofInteger? value word = some w →
        (∀ j : Nat, word[j]?.bind (·.difference?) = some false → w[j]? = word[j]?) ∧
          w.map (·.difference?) = word.map (·.difference?) ∧ w.getLast? = word.getLast? ∧
          toInteger? w = some (value % 2 ^ word.length)) ∧
      (isGrounded word = true → ∃ value, toInteger? word = some value ∧
        ofInteger? value word = some word ∧
        ∀ x x' : BitVec word.length,
          (∀ (j : Nat) c, word[j]? = some c → c.allows ⟨x.getLsbD j, x'.getLsbD j⟩ = true) →
          (value : Int) ≡ x.toNat - x'.toNat [ZMOD 2 ^ word.length]) := by
  cases hgrounded : isGrounded word with
  | false => simp [ofInteger?, support?_eq_none hgrounded]
  | true =>
    obtain ⟨s, h⟩ := exists_supported hgrounded
    refine ⟨fun value => ?_, fun value w hw => ?_, fun _ => ?_⟩
    · rw [isSome_ofInteger? h hmax, and_iff_right rfl]
    · obtain ⟨b, hb, hmod, htop, rfl⟩ := (ofInteger?_eq_some h hmax).mp hw
      exact ⟨fun j hj => withSigns_of_same h b hj, map_difference?_withSigns h b,
        getLast?_withSigns h htop, toInteger?_withSigns h hmax hb hmod⟩
    · obtain ⟨value, hvalue, hword⟩ := ofInteger?_toInteger? h hmax
      exact ⟨value, hvalue, hword, fun x x' hfits => toInteger?_modEq hmax hvalue hfits⟩

/-- The low bit changes its sign for the value, and the top bit keeps its own. -/
theorem ofInteger?_exact_three_bits :
    ofInteger? 3 [.u, .one, .n] = some [.n, .one, .n] ∧ toInteger? [.n, .one, .n] = some 3 ∧
      ∃ positive, signedSum [.u, .one, .n] positive ≡ 3 [ZMOD 2 ^ 3] := by
  have hrun : ofInteger? 3 [.u, .one, .n] = some [.n, .one, .n] := by decide
  obtain ⟨hsome, hfound, -⟩ := @ofInteger?_exact [.u, .one, .n] (by decide)
  obtain ⟨-, -, -, hinteger⟩ := hfound 3 _ hrun
  obtain ⟨-, hsigns⟩ := (hsome 3).mp (by simp [hrun])
  exact ⟨hrun, hinteger, hsigns⟩

end Modular

end ShaDiff
