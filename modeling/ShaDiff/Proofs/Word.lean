import ShaDiff.Bit
import ShaDiff.Gate

/-!
# Words as bit vectors

A choice of a value for every bit gives each word a bit vector, and each view the bit
vector that is rotated or shifted as the view says (`View.getLsbD_value`). An addition
is settled column by column: its carries are digits of the column sums, and once they
are, the lowest digits of the column sums are the sum of the addends modulo two to the
number of bits (`eq_wordSum_iff`). A column sum depends on the carries of lower columns
alone, so there is exactly one choice of carries for given addends
(`carries_carriesOf`, `Carries.unique`).
-/

namespace ShaDiff

variable {n : Nat}

-- ---------------------------------------------------------------------------
-- Digits
-- ---------------------------------------------------------------------------

/-- The number with given digits, least significant first. Digits need not be 0 or 1. -/
def weigh : (size : Nat) → (digit : Nat → Nat) → Nat
  | 0, _ => 0
  | size + 1, digit => digit 0 + 2 * weigh size fun j => digit (j + 1)

theorem weigh_congr {size : Nat} {f g : Nat → Nat} (h : ∀ j < size, f j = g j) :
    weigh size f = weigh size g := by
  induction size generalizing f g with
  | zero => rfl
  | succ size ih =>
    rw [weigh, weigh, h 0 (Nat.succ_pos _), ih fun j hj => h (j + 1) (Nat.succ_lt_succ hj)]

theorem weigh_add (size : Nat) (f g : Nat → Nat) :
    weigh size (fun j => f j + g j) = weigh size f + weigh size g := by
  induction size generalizing f g with
  | zero => rfl
  | succ size ih =>
    rw [weigh, weigh, weigh, ih]
    omega

theorem weigh_mul (size k : Nat) (f : Nat → Nat) :
    weigh size (fun j => k * f j) = k * weigh size f := by
  induction size generalizing f with
  | zero => rfl
  | succ size ih =>
    rw [weigh, weigh, ih, Nat.mul_add, Nat.mul_left_comm]

theorem weigh_testBit (size x : Nat) :
    weigh size (fun j => (x.testBit j).toNat) = x % 1 <<< size := by
  induction size generalizing x with
  | zero => simp [weigh, Nat.mod_one]
  | succ size ih =>
    simp only [weigh, Nat.testBit_succ, ih]
    rw [Nat.shiftLeft_succ, Nat.mod_mul, Nat.testBit_zero]
    rcases Nat.mod_two_eq_zero_or_one x with h | h <;> simp [h]

theorem toNat_eq_weigh (x : BitVec n) : x.toNat = weigh n fun j => (x.getLsbD j).toNat := by
  have h := weigh_testBit n x.toNat
  rw [Nat.one_shiftLeft, Nat.mod_eq_of_lt x.isLt] at h
  exact h.symm

theorem testBit_weigh {size : Nat} {f : Nat → Bool} {j : Nat} (h : j < size) :
    (weigh size fun j => (f j).toNat).testBit j = f j := by
  induction size generalizing f j with
  | zero => exact absurd h (Nat.not_lt_zero j)
  | succ size ih =>
    rw [weigh]
    cases j with
    | zero =>
      rw [Nat.testBit_zero]
      cases f 0 <;> simp
    | succ j =>
      have hhalf : ((f 0).toNat + 2 * weigh size fun j => (f (j + 1)).toNat) / 2 =
          weigh size fun j => (f (j + 1)).toNat := by
        have := (f 0).toNat_lt
        omega
      rw [Nat.testBit_succ, hhalf]
      exact ih (f := fun j => f (j + 1)) (Nat.lt_of_succ_lt_succ h)

def ofBits (n : Nat) (f : Nat → Bool) : BitVec n := .ofNat n (weigh n fun j => (f j).toNat)

theorem getLsbD_ofBits {f : Nat → Bool} {j : Nat} (h : j < n) : (ofBits n f).getLsbD j = f j := by
  rw [ofBits, BitVec.getLsbD_ofNat, testBit_weigh h, decide_eq_true h, Bool.true_and]

-- ---------------------------------------------------------------------------
-- Views
-- ---------------------------------------------------------------------------

def wordValue (n : Nat) (ν : Bit → Bool) (word : Nat) : BitVec n :=
  ofBits n fun column => ν ⟨word, column⟩

theorem getLsbD_wordValue {j : Nat} (h : j < n) (ν : Bit → Bool) (word : Nat) :
    (wordValue n ν word).getLsbD j = ν ⟨word, j⟩ :=
  getLsbD_ofBits h

def View.value (n : Nat) (ν : Bit → Bool) : View → BitVec n
  | whole w => wordValue n ν w
  | rotated w k => (wordValue n ν w).rotateRight k
  | lowered w k => wordValue n ν w >>> k
  | raised w k => wordValue n ν w <<< k

@[simp] theorem View.value_whole (ν : Bit → Bool) (w : Nat) :
    (whole w).value n ν = wordValue n ν w := rfl

@[simp] theorem View.value_lowered (ν : Bit → Bool) (w k : Nat) :
    (lowered w k).value n ν = wordValue n ν w >>> k := rfl

theorem View.getLsbD_value {ν : Bit → Bool} (hz : ∀ b : Bit, b.isZero = true → ν b = false)
    {j : Nat} (h : j < n) (v : View) : (v.value n ν).getLsbD j = ν (v.bit n j) := by
  cases v with
  | whole w => exact getLsbD_wordValue h ν w
  | rotated w k =>
    have hk : k % n < n := Nat.mod_lt _ (Nat.zero_lt_of_lt h)
    have hmod : (j + k) % n = if j + k % n < n then j + k % n else j + k % n - n := by
      rw [Nat.add_mod, Nat.mod_eq_of_lt h]
      split
      · exact Nat.mod_eq_of_lt ‹_›
      · rw [Nat.mod_eq_sub_mod (by omega), Nat.mod_eq_of_lt (by omega)]
    simp only [value, bit, BitVec.getLsbD_rotateRight, hmod]
    by_cases hj : j < n - k % n
    · rw [if_pos (by omega), decide_eq_true hj, cond_true, getLsbD_wordValue (by omega),
        Nat.add_comm]
    · rw [if_neg (by omega), decide_eq_false hj, cond_false, getLsbD_wordValue (by omega),
        decide_eq_true h, Bool.true_and]
      congr 2
      omega
  | lowered w k =>
    simp only [value, bit, BitVec.getLsbD_ushiftRight]
    split
    · rw [getLsbD_wordValue (by omega), Nat.add_comm]
    · rw [BitVec.getLsbD_of_ge _ _ (by omega), hz _ rfl]
  | raised w k =>
    simp only [value, bit, BitVec.getLsbD_shiftLeft]
    split
    · rw [getLsbD_wordValue (by omega), decide_eq_true h, decide_eq_false (by omega)]
      rfl
    · rw [decide_eq_true (p := j < k) (by omega), hz _ rfl]
      simp

-- ---------------------------------------------------------------------------
-- Column sums
-- ---------------------------------------------------------------------------

def columnSum (ws : List (BitVec n)) (column : Nat) : Nat := ws.countP (·.getLsbD column)

theorem columnSum_le (ws : List (BitVec n)) (column : Nat) : columnSum ws column ≤ ws.length :=
  List.countP_le_length

def wordSum : List (BitVec n) → BitVec n
  | [] => 0#n
  | w :: ws => w + wordSum ws

theorem wordSum_append (vs ws : List (BitVec n)) :
    wordSum (vs ++ ws) = wordSum vs + wordSum ws := by
  induction vs with
  | nil => simp [wordSum]
  | cons v vs ih => simp only [List.cons_append, wordSum, ih, BitVec.add_assoc]

theorem ofNat_weigh_columnSum (ws : List (BitVec n)) :
    BitVec.ofNat n (weigh n (columnSum ws)) = wordSum ws := by
  induction ws with
  | nil =>
    have : weigh n (columnSum (n := n) []) = weigh n fun j => 0 * 0 := rfl
    rw [this, weigh_mul, Nat.zero_mul]
    rfl
  | cons w ws ih =>
    have hcons (j : Nat) : columnSum (w :: ws) j = (w.getLsbD j).toNat + columnSum ws j := by
      rw [columnSum, List.countP_cons, Nat.add_comm]
      cases w.getLsbD j <;> rfl
    rw [weigh_congr fun j _ => hcons j, weigh_add, BitVec.ofNat_add, ih, ← toNat_eq_weigh,
      BitVec.ofNat_toNat, BitVec.setWidth_eq]
    rfl

/-- Words whose column sums are written in binary by three others. -/
theorem wordSum_of_digits {ws : List (BitVec n)} {w c d : BitVec n}
    (h : ∀ j < n, columnSum ws j =
      (w.getLsbD j).toNat + 2 * (c.getLsbD j).toNat + 4 * (d.getLsbD j).toNat) :
    wordSum ws = w + c <<< 1 + d <<< 2 := by
  have hshift (x : BitVec n) (k : Nat) : BitVec.ofNat n (1 <<< k * x.toNat) = x <<< k := by
    refine BitVec.eq_of_toNat_eq ?_
    rw [BitVec.toNat_ofNat, BitVec.toNat_shiftLeft, Nat.shiftLeft_eq, Nat.shiftLeft_eq,
      Nat.one_mul, Nat.mul_comm]
  rw [← ofNat_weigh_columnSum, weigh_congr h, weigh_add, weigh_add, weigh_mul, weigh_mul,
    ← toNat_eq_weigh, ← toNat_eq_weigh, ← toNat_eq_weigh, BitVec.ofNat_add, BitVec.ofNat_add,
    BitVec.ofNat_toNat, BitVec.setWidth_eq, ← hshift c 1, ← hshift d 2]
  rfl

-- ---------------------------------------------------------------------------
-- Additions
-- ---------------------------------------------------------------------------

/-- What an addition counts at each column: its addends, and its carries where they
enter. -/
def counted (addends : List (BitVec n)) (carry carry2 : BitVec n) : List (BitVec n) :=
  addends ++ [carry <<< 1, carry2 <<< 2]

/-- Whether the first word holds at each column the digit of weight two of the column
sum, and the second that of weight four. -/
def Carries (addends : List (BitVec n)) (carry carry2 : BitVec n) : Prop :=
  ∀ j < n, carry.getLsbD j = (columnSum (counted addends carry carry2) j).testBit 1 ∧
    carry2.getLsbD j = (columnSum (counted addends carry carry2) j).testBit 2

def Carry (addends : List (BitVec n)) (carry : BitVec n) : Prop :=
  ∀ j < n, carry.getLsbD j = (columnSum (addends ++ [carry <<< 1]) j).testBit 1

variable {addends : List (BitVec n)} {carry carry2 w : BitVec n}

theorem columnSum_counted_zero (addends : List (BitVec n)) (carry : BitVec n) (j : Nat) :
    columnSum (counted addends carry 0#n) j = columnSum (addends ++ [carry <<< 1]) j := by
  simp [columnSum, counted, List.countP_append, List.countP_cons]

theorem digits_eq {m : Nat} (h : m < 8) :
    m = (m.testBit 0).toNat + 2 * (m.testBit 1).toNat + 4 * (m.testBit 2).toNat := by
  revert m
  decide

/-- Once the carries are right, the lowest digits of the column sums are those of the
sum of the addends. -/
theorem eq_wordSum_iff (h : Carries addends carry carry2) (hl : addends.length ≤ 5) :
    w = wordSum addends ↔
      ∀ j < n, w.getLsbD j = (columnSum (counted addends carry carry2) j).testBit 0 := by
  have key {x : BitVec n}
      (hx : ∀ j < n, x.getLsbD j = (columnSum (counted addends carry carry2) j).testBit 0) :
      x = wordSum addends := by
    have hdigits (j : Nat) (hj : j < n) : columnSum (counted addends carry carry2) j =
        (x.getLsbD j).toNat + 2 * (carry.getLsbD j).toNat + 4 * (carry2.getLsbD j).toNat := by
      have hle := columnSum_le (counted addends carry carry2) j
      rw [counted, List.length_append] at hle
      rw [hx j hj, (h j hj).1, (h j hj).2]
      exact digits_eq (Nat.lt_of_le_of_lt hle (Nat.add_lt_add_right (Nat.lt_succ_of_le hl) 2))
    have hsum := wordSum_of_digits hdigits
    have hcarries : wordSum (counted addends carry carry2) =
        wordSum addends + carry <<< 1 + carry2 <<< 2 := by
      rw [counted, wordSum_append, wordSum, wordSum, wordSum, BitVec.add_zero, BitVec.add_assoc]
    rw [hcarries, BitVec.add_left_inj, BitVec.add_left_inj] at hsum
    exact hsum.symm
  constructor
  · rintro rfl j hj
    rw [← key (x := ofBits n fun j => (columnSum (counted addends carry carry2) j).testBit 0)
      fun j hj => getLsbD_ofBits hj]
    exact getLsbD_ofBits hj
  · exact key

theorem carries_zero (hl : addends.length ≤ 2) :
    Carries addends carry 0#n ↔ Carry addends carry := by
  simp only [Carries, Carry, columnSum_counted_zero, BitVec.getLsbD_zero]
  refine forall₂_congr fun j hj => and_iff_left ?_
  have hle := columnSum_le (addends ++ [carry <<< 1]) j
  rw [List.length_append, List.length_singleton] at hle
  exact (Nat.testBit_lt_two_pow (Nat.lt_of_le_of_lt hle (by omega))).symm

theorem columnSum_counted (addends : List (BitVec n)) (carry carry2 : BitVec n) (j : Nat) :
    columnSum (counted addends carry carry2) j = columnSum addends j +
      ((carry <<< 1).getLsbD j).toNat + ((carry2 <<< 2).getLsbD j).toNat := by
  simp only [columnSum, counted, List.countP_append, List.countP_cons, List.countP_nil]
  cases (carry <<< 1).getLsbD j <;> cases (carry2 <<< 2).getLsbD j <;> rfl

theorem Carries.carry2_eq_zero (h : Carries addends carry carry2) (hl : addends.length ≤ 2) :
    carry2 = 0#n := by
  have hbits (j : Nat) : j < n → carry2.getLsbD j = false := by
    -- A second carry would need one two columns below.
    induction j using Nat.strongRecOn with
    | ind j ih =>
      intro hj
      have hshift : (carry2 <<< 2).getLsbD j = false := by
        rw [BitVec.getLsbD_shiftLeft]
        by_cases h2 : j < 2
        · simp [h2]
        · simp [ih (j - 2) (by omega) (by omega)]
      rw [(h j hj).2, columnSum_counted, hshift]
      have hle := columnSum_le addends j
      exact Nat.testBit_lt_two_pow (by
        have := ((carry <<< 1).getLsbD j).toNat_le
        simp only [Bool.toNat_false]
        omega)
  exact BitVec.eq_of_getLsbD_eq fun j hj => by rw [hbits j hj, BitVec.getLsbD_zero]

-- ---------------------------------------------------------------------------
-- Choice of carries
-- ---------------------------------------------------------------------------

def chosen {α : Type} [Inhabited α] (next : (Nat → α) → Nat → α) : (times : Nat) → Nat → α
  | 0 => fun _ => default
  | times + 1 => next (chosen next times)

/-- Whether what is next for a column depends on lower columns alone. -/
def Causal {α : Type} (next : (Nat → α) → Nat → α) : Prop :=
  ∀ f g j, (∀ i < j, f i = g i) → next f j = next g j

theorem Causal.chosen_settled {α : Type} [Inhabited α] {next : (Nat → α) → Nat → α}
    (h : Causal next) (k : Nat) : ∀ j < k, chosen next k j = chosen next (j + 1) j := by
  induction k using Nat.strongRecOn with
  | ind k ih =>
    intro j hj
    cases k with
    | zero => exact absurd hj (Nat.not_lt_zero j)
    | succ k =>
      refine h _ _ _ fun i hi => ?_
      rw [ih k (Nat.lt_succ_self k) i (by omega), ih j hj i hi]

theorem Causal.chosen_fixed {α : Type} [Inhabited α] {next : (Nat → α) → Nat → α}
    (h : Causal next) (j : Nat) :
    chosen next (j + 1) j = next (fun j => chosen next (j + 1) j) j :=
  h _ _ _ fun i hi => h.chosen_settled j i hi

theorem Causal.eq_of_fixed {α : Type} {next : (Nat → α) → Nat → α} (h : Causal next)
    {f g : Nat → α} (hf : ∀ j < n, f j = next f j) (hg : ∀ j < n, g j = next g j) :
    ∀ j < n, f j = g j := by
  intro j
  induction j using Nat.strongRecOn with
  | ind j ih =>
    intro hj
    rw [hf j hj, hg j hj]
    exact h _ _ _ fun i hi => ih i hi (Nat.lt_trans hi hj)

def carriesNext (addends : List (BitVec n)) (f : Nat → Bool × Bool) (j : Nat) : Bool × Bool :=
  let sum := columnSum (counted addends (ofBits n fun i => (f i).1) (ofBits n fun i => (f i).2)) j
  (sum.testBit 1, sum.testBit 2)

theorem causal_carriesNext (addends : List (BitVec n)) : Causal (carriesNext addends) := by
  intro f g j h
  have hshift (p : Bool × Bool → Bool) (k : Nat) (hk : 0 < k) :
      (ofBits n (fun i => p (f i)) <<< k).getLsbD j =
        (ofBits n (fun i => p (g i)) <<< k).getLsbD j := by
    simp only [BitVec.getLsbD_shiftLeft]
    by_cases hj : j < k ∨ n ≤ j
    · rcases hj with hj | hj <;> simp [hj, Nat.not_lt.mpr]
    · rw [getLsbD_ofBits (by omega), getLsbD_ofBits (by omega), h (j - k) (by omega)]
  simp only [carriesNext, columnSum_counted, hshift Prod.fst 1 (by decide),
    hshift Prod.snd 2 (by decide)]

theorem carries_iff : Carries addends carry carry2 ↔
    ∀ j < n, (carry.getLsbD j, carry2.getLsbD j) =
      carriesNext addends (fun j => (carry.getLsbD j, carry2.getLsbD j)) j := by
  have hid (x : BitVec n) : ofBits n (fun i => x.getLsbD i) = x :=
    BitVec.eq_of_getLsbD_eq fun j hj => getLsbD_ofBits hj
  simp only [Carries, carriesNext, hid, Prod.mk.injEq]

def carriesOf (addends : List (BitVec n)) : BitVec n × BitVec n :=
  let bits j := chosen (carriesNext addends) (j + 1) j
  (ofBits n fun j => (bits j).1, ofBits n fun j => (bits j).2)

theorem carries_carriesOf (addends : List (BitVec n)) :
    Carries addends (carriesOf addends).1 (carriesOf addends).2 := by
  intro j hj
  rw [carriesOf, getLsbD_ofBits hj, getLsbD_ofBits hj]
  exact Prod.mk.inj ((causal_carriesNext addends).chosen_fixed j)

theorem Carries.unique {c d : BitVec n} (h : Carries addends carry carry2)
    (h' : Carries addends c d) : carry = c ∧ carry2 = d := by
  have heq := (causal_carriesNext addends).eq_of_fixed (carries_iff.mp h) (carries_iff.mp h')
  exact ⟨BitVec.eq_of_getLsbD_eq fun j hj => (Prod.mk.inj (heq j hj)).1,
    BitVec.eq_of_getLsbD_eq fun j hj => (Prod.mk.inj (heq j hj)).2⟩

theorem carry_carriesOf (hl : addends.length ≤ 2) : Carry addends (carriesOf addends).1 := by
  have h := carries_carriesOf addends
  rwa [h.carry2_eq_zero hl, carries_zero hl] at h

theorem Carry.unique {c : BitVec n} (hl : addends.length ≤ 2) (h : Carry addends carry)
    (h' : Carry addends c) : carry = c :=
  (((carries_zero hl).mpr h).unique ((carries_zero hl).mpr h')).1

end ShaDiff
