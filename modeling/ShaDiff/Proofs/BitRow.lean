import Mathlib.Algebra.Field.ZMod
import ShaDiff.BitRow

/-!
# Rows of bits are vectors

A row that is only turned over, set and added to within its length has no entry past it
(`Trim`). So it does not matter whether a row is read entry by entry up to its length or in
whole blocks: the number of ones, the first one, whether there is one, and whether two rows are
equal are the same (`ReadInBlocks`). It is written in blocks as well (`block_flip`, `block_set`,
`block_xor`). Rows edited side by side from zeros are the vectors over GF(2) that the same edits
make of zero vectors (`vectors_of_edits`).
-/

namespace ShaDiff.BitRow

variable {r s : BitRow} {i j n : Nat}

theorem ext_get (hlength : r.length = s.length) (h : ∀ i, r.get i = s.get i) : r = s := by
  obtain ⟨length, bits⟩ := r
  obtain ⟨length', bits'⟩ := s
  exact BitRow.mk.injEq .. ▸ ⟨hlength, Nat.eq_of_testBit_eq h⟩

theorem get_zeros (n i : Nat) : (zeros n).get i = false := Nat.zero_testBit i

theorem isZero_iff : r.isZero = true ↔ ∀ i, r.get i = false := by
  rw [isZero, beq_iff_eq]
  refine ⟨fun h i => by rw [get, h, Nat.zero_testBit], fun h => Nat.eq_of_testBit_eq fun i => ?_⟩
  rw [Nat.zero_testBit]
  exact h i

-- ---------------------------------------------------------------------------
-- Blocks
-- ---------------------------------------------------------------------------

def blockCount (r : BitRow) : Nat := (r.length + blockSize - 1) / blockSize

theorem room_eq (r : BitRow) : r.room = r.blockCount * blockSize := rfl

/-- A block of a row as a word, its first entry least significant. -/
def block (r : BitRow) (k : Nat) : BitVec blockSize := .ofNat blockSize (r.bits >>> (blockSize * k))

theorem getLsbD_block (hj : j < blockSize) (k : Nat) :
    (r.block k).getLsbD j = r.get (blockSize * k + j) := by
  rw [block, BitVec.getLsbD_ofNat, Nat.testBit_shiftRight, decide_eq_true hj, Bool.true_and, get]

theorem toNat_cpop_eq_countP {w : Nat} (b : BitVec w) :
    b.cpop.toNat = (List.range w).countP b.getLsbD := by
  have hcount (n : Nat) : b.cpopNatRec n 0 = (List.range n).countP b.getLsbD := by
    induction n with
    | zero => rfl
    | succ n ih =>
      rw [BitVec.cpopNatRec_succ, BitVec.cpopNatRec_eq, ih, List.range_succ, List.countP_append,
        List.countP_singleton, Nat.zero_add]
      cases b.getLsbD n <;> rfl
  rw [BitVec.toNat_cpop, hcount]

theorem count_eq_countP (r : BitRow) : r.count = (List.range r.room).countP r.get :=
  List.countP_eq_length_filter.symm

theorem sum_cpop_blocks (r : BitRow) :
    ((List.range r.blockCount).map fun k => (r.block k).cpop.toNat).sum = r.count := by
  have hblocks (n : Nat) : ((List.range n).map fun k => (r.block k).cpop.toNat).sum =
      (List.range (n * blockSize)).countP r.get := by
    induction n with
    | zero => rfl
    | succ n ih =>
      have hblock : (r.block n).cpop.toNat =
          (List.range blockSize).countP (r.get <| n * blockSize + ·) := by
        rw [toNat_cpop_eq_countP]
        refine List.countP_congr fun j hj => ?_
        rw [getLsbD_block (List.mem_range.mp hj), Nat.mul_comm]
      rw [List.range_succ, List.map_append, List.sum_append, ih, List.map_singleton,
        List.sum_singleton, hblock, Nat.succ_mul, List.range_add, List.countP_append,
        List.countP_map]
      rfl
  rw [hblocks, count_eq_countP, room_eq]

theorem block_eq_zero_iff {k : Nat} :
    r.block k = 0 ↔ ∀ j < blockSize, r.get (blockSize * k + j) = false := by
  constructor
  · intro h j hj
    rw [← getLsbD_block hj, h]
    exact BitVec.getLsbD_zero
  · intro h
    refine BitVec.eq_of_getLsbD_eq fun j hj => ?_
    rw [getLsbD_block hj, h j hj]
    exact BitVec.getLsbD_zero.symm

theorem get_of_block_eq_zero (h : r.block (i / blockSize) = 0) : r.get i = false := by
  rw [← Nat.div_add_mod i blockSize]
  exact block_eq_zero_iff.mp h _ (Nat.mod_lt i (by decide))

theorem div_lt_blockCount (hi : i < r.room) : i / blockSize < r.blockCount :=
  Nat.div_lt_of_lt_mul (by rwa [Nat.mul_comm])

theorem mul_add_lt_room {k : Nat} (hk : k < r.blockCount) (hj : j < blockSize) :
    blockSize * k + j < r.room :=
  calc blockSize * k + j
    _ < blockSize * (k + 1) := by rw [Nat.mul_succ]; omega
    _ ≤ r.room := by rw [room_eq, Nat.mul_comm]; exact Nat.mul_le_mul_right _ hk

theorem first?_eq_find? (r : BitRow) : r.first? = (List.range r.room).find? r.get :=
  List.head?_filter ..

/-- The first one is the least significant one of the first block that is not zero. -/
theorem first?_eq_find?_block (r : BitRow) :
    r.first? = ((List.range r.blockCount).find? fun k => r.block k != 0).map
      fun k => blockSize * k + (r.block k).ctz.toNat := by
  rw [first?_eq_find?]
  cases hk : (List.range r.blockCount).find? fun k => r.block k != 0 with
  | none =>
    rw [List.find?_eq_none] at hk
    rw [Option.map_none, List.find?_eq_none]
    intro i hi
    have hzero := hk _ (List.mem_range.mpr (div_lt_blockCount (List.mem_range.mp hi)))
    rw [get_of_block_eq_zero (by simpa using hzero)]
    exact Bool.false_ne_true
  | some k =>
    obtain ⟨hne, hlt, hbefore⟩ := List.find?_range_eq_some.mp hk
    have hne : r.block k ≠ 0 := by simpa using hne
    have hone := BitVec.getLsbD_true_ctz_of_ne_zero hne
    have hctz : (r.block k).ctz.toNat < blockSize := BitVec.lt_of_getLsbD hone
    rw [Option.map_some, List.find?_range_eq_some]
    refine ⟨by rw [← getLsbD_block hctz, hone], ?_, fun j hj => ?_⟩
    · exact List.mem_range.mpr (mul_add_lt_room (List.mem_range.mp hlt) hctz)
    · -- An entry before is in an earlier block, or further down in the same one.
      rw [Bool.not_eq_true', ← Bool.not_eq_true]
      by_cases hj' : j < blockSize * k
      · have hzero := hbefore (j / blockSize) (Nat.div_lt_of_lt_mul hj')
        rw [get_of_block_eq_zero (by simpa using hzero)]
        exact Bool.false_ne_true
      · obtain ⟨d, rfl⟩ := Nat.exists_eq_add_of_le (Nat.le_of_not_lt hj')
        have hd : d < (r.block k).ctz.toNat := by omega
        rw [← getLsbD_block (by omega), BitVec.getLsbD_false_of_lt_ctz hd]
        exact Bool.false_ne_true

theorem block_eq_iff_get :
    (∀ k < r.blockCount, r.block k = s.block k) ↔ ∀ i < r.room, r.get i = s.get i := by
  constructor
  · intro hblocks i hi
    have hj := Nat.mod_lt i (show 0 < blockSize by decide)
    rw [← Nat.div_add_mod i blockSize, ← getLsbD_block hj, hblocks _ (div_lt_blockCount hi),
      getLsbD_block hj]
  · intro hget k hk
    refine BitVec.eq_of_getLsbD_eq fun j hj => ?_
    rw [getLsbD_block hj, getLsbD_block hj, hget _ (mul_add_lt_room hk hj)]

/-- The blocks of a row whose only one is at a place. -/
def unitBlock (i k : Nat) : BitVec blockSize :=
  if k = i / blockSize then .twoPow blockSize (i % blockSize) else 0

theorem getLsbD_unitBlock (hj : j < blockSize) (k : Nat) :
    (unitBlock i k).getLsbD j = decide (i = blockSize * k + j) := by
  have hmod := Nat.mod_lt i (show 0 < blockSize by decide)
  have hplace : i = blockSize * k + j ↔ k = i / blockSize ∧ i % blockSize = j := by
    unfold blockSize at hj ⊢
    omega
  refine Bool.eq_iff_iff.mpr (.trans ?_ (hplace.symm.trans decide_eq_true_iff.symm))
  unfold unitBlock
  split
  · next hk => simp [hk, hmod]
  · next hk => simp [hk]

theorem block_flip (hi : i < r.room) (k : Nat) :
    (r.flip i).block k = r.block k ^^^ unitBlock i k := by
  refine BitVec.eq_of_getLsbD_eq fun j hj => ?_
  rw [BitVec.getLsbD_xor, getLsbD_block hj, getLsbD_block hj, getLsbD_unitBlock hj, get_flip hi]

/-- An entry is set by or with a one, and cleared by and with all others. -/
theorem block_set (hi : i < r.room) (value : Bool) (k : Nat) : (r.set i value).block k =
    if value then r.block k ||| unitBlock i k else r.block k &&& ~~~unitBlock i k := by
  refine BitVec.eq_of_getLsbD_eq fun j hj => ?_
  rw [getLsbD_block hj, get_set hi]
  cases value with
  | true =>
    rw [if_pos rfl, BitVec.getLsbD_or, getLsbD_block hj, getLsbD_unitBlock hj]
    split <;> simp_all
  | false =>
    rw [if_neg Bool.false_ne_true, BitVec.getLsbD_and, BitVec.getLsbD_not, getLsbD_block hj,
      getLsbD_unitBlock hj]
    split <;> simp_all

theorem block_xor {k : Nat} (hk : k < r.blockCount) :
    (r.xor s).block k = r.block k ^^^ s.block k := by
  refine BitVec.eq_of_getLsbD_eq fun j hj => ?_
  rw [BitVec.getLsbD_xor, getLsbD_block hj, getLsbD_block hj, getLsbD_block hj,
    get_xor (mul_add_lt_room hk hj)]

-- ---------------------------------------------------------------------------
-- Rows without entries past their length
-- ---------------------------------------------------------------------------

def Trim (r : BitRow) : Prop := ∀ i, r.length ≤ i → r.get i = false

theorem trim_zeros (n : Nat) : (zeros n).Trim := fun i _ => get_zeros n i

theorem Trim.flip (h : r.Trim) (hi : i < r.length) : (r.flip i).Trim := by
  intro j hj
  rw [length_flip] at hj
  rw [get_flip (Nat.lt_of_lt_of_le hi r.length_le_room), h j hj,
    decide_eq_false (Nat.ne_of_lt (Nat.lt_of_lt_of_le hi hj)), Bool.xor_false]

theorem Trim.set (h : r.Trim) (hi : i < r.length) (value : Bool) : (r.set i value).Trim := by
  unfold BitRow.set
  split
  · exact h
  · exact h.flip hi

theorem Trim.get_xor (hs : s.Trim) (hlength : s.length = r.length) (i : Nat) :
    (r.xor s).get i = (r.get i ^^ s.get i) := by
  by_cases hi : i < r.room
  · exact BitRow.get_xor hi
  · have hpast : s.get i = false := hs i <| by
      have := r.length_le_room
      omega
    rw [hpast, Bool.xor_false]
    simp [BitRow.xor, get, hi, Nat.one_shiftLeft, Nat.testBit_mod_two_pow]

theorem Trim.xor (h : r.Trim) (hs : s.Trim) (hlength : s.length = r.length) : (r.xor s).Trim := by
  intro i hi
  have hi : r.length ≤ i := hi
  rw [hs.get_xor hlength, h i hi, hs i (hlength ▸ hi)]
  rfl

theorem Trim.onesInRoom (h : r.Trim) : r.onesInRoom = r.ones := by
  obtain ⟨past, hpast⟩ := Nat.exists_eq_add_of_le r.length_le_room
  have hnone : ((List.range past).map (r.length + ·)).filter r.get = [] := by
    refine List.filter_eq_nil_iff.mpr fun i hi => ?_
    obtain ⟨j, -, rfl⟩ := List.mem_map.mp hi
    rw [h _ (Nat.le_add_right ..)]
    exact Bool.false_ne_true
  rw [BitRow.onesInRoom, ones, hpast, List.range_add, List.filter_append, hnone, List.append_nil]

theorem mem_ones : i ∈ r.ones ↔ i < r.length ∧ r.get i = true := by
  rw [ones, List.mem_filter, List.mem_range]

theorem pairwise_ones (r : BitRow) : r.ones.Pairwise (· < ·) :=
  List.pairwise_lt_range.filter _

theorem Trim.isZero_iff (h : r.Trim) : r.isZero = true ↔ r.ones = [] := by
  rw [BitRow.isZero_iff, List.eq_nil_iff_forall_not_mem]
  refine ⟨fun hzero i hi => ?_, fun hnone i => ?_⟩
  · rw [mem_ones, hzero] at hi
    exact Bool.false_ne_true hi.2
  · by_cases hi : i < r.length
    · exact Bool.eq_false_iff.mpr fun hone => hnone i (mem_ones.mpr ⟨hi, hone⟩)
    · exact h i (Nat.le_of_not_lt hi)

theorem Trim.eq_iff (h : r.Trim) (hs : s.Trim) (hlength : r.length = s.length) :
    r = s ↔ ∀ i < r.length, r.get i = s.get i := by
  refine ⟨fun heq i _ => by rw [heq], fun hget => ext_get hlength fun i => ?_⟩
  by_cases hi : i < r.length
  · exact hget i hi
  · rw [h i (Nat.le_of_not_lt hi), hs i (hlength ▸ Nat.le_of_not_lt hi)]

theorem Trim.count_eq (h : r.Trim) : r.count = r.ones.length := by rw [count, h.onesInRoom]

theorem Trim.first?_eq (h : r.Trim) : r.first? = r.ones.head? := by rw [first?, h.onesInRoom]

/-- Whether some places are those of the ones, as far as whole blocks tell: how many there are,
which is the first, and whether there is one. -/
structure ReadInBlocks (r : BitRow) (places : List Nat) : Prop where
  count : ((List.range r.blockCount).map fun k => (r.block k).cpop.toNat).sum = places.length
  first : ((List.range r.blockCount).find? fun k => r.block k != 0).map
    (fun k => blockSize * k + (r.block k).ctz.toNat) = places.head?
  isZero : (∀ k < r.blockCount, r.block k = 0) ↔ places = []

theorem Trim.readInBlocks (h : r.Trim) : r.ReadInBlocks r.ones where
  count := r.sum_cpop_blocks.trans h.count_eq
  first := r.first?_eq_find?_block.symm.trans h.first?_eq
  isZero := by
    rw [← h.isZero_iff, BitRow.isZero_iff]
    refine ⟨fun hblocks i => ?_, fun hzero k _ => block_eq_zero_iff.mpr fun j _ => hzero _⟩
    by_cases hi : i < r.room
    · exact get_of_block_eq_zero (hblocks _ (div_lt_blockCount hi))
    · exact h i (Nat.le_trans r.length_le_room (Nat.le_of_not_lt hi))

theorem Trim.block_eq_iff (h : r.Trim) (hs : s.Trim) (hlength : r.length = s.length) :
    (∀ k < r.blockCount, r.block k = s.block k) ↔ r = s := by
  rw [block_eq_iff_get, h.eq_iff hs hlength]
  refine ⟨fun hroom i hi => hroom i (Nat.lt_of_lt_of_le hi r.length_le_room), fun hget i _ => ?_⟩
  rw [(h.eq_iff hs hlength).mpr hget]

-- ---------------------------------------------------------------------------
-- Edits
-- ---------------------------------------------------------------------------

inductive Edit (n : Nat)
  | set (row : Nat) (i : Fin n) (value : Bool)
  | flip (row : Nat) (i : Fin n)
  | add (row other : Nat)
deriving DecidableEq

namespace Edit

def onRows (rows : Nat → BitRow) : Edit n → Nat → BitRow
  | set row i value => Function.update rows row ((rows row).set i value)
  | flip row i => Function.update rows row ((rows row).flip i)
  | add row other => Function.update rows row ((rows row).xor (rows other))

def onVectors (xs : Nat → Fin n → ZMod 2) : Edit n → Nat → Fin n → ZMod 2
  | set row i value =>
    Function.update xs row (Function.update (xs row) i (if value then 1 else 0))
  | flip row i => Function.update xs row (xs row + Pi.single i 1)
  | add row other => Function.update xs row (xs row + xs other)

end Edit

def edited (edits : List (Edit n)) : Nat → BitRow := edits.foldl Edit.onRows fun _ => zeros n

def vectors (edits : List (Edit n)) : Nat → Fin n → ZMod 2 := edits.foldl Edit.onVectors 0

structure Holds (r : BitRow) (x : Fin n → ZMod 2) : Prop where
  length : r.length = n
  trim : r.Trim
  get : ∀ i : Fin n, r.get i = decide (x i = 1)

variable {x y : Fin n → ZMod 2}

theorem Holds.lt_length (h : r.Holds x) (i : Fin n) : i < r.length := h.length ▸ i.isLt

theorem Holds.lt_room (h : r.Holds x) (i : Fin n) : i < r.room :=
  Nat.lt_of_lt_of_le (h.lt_length i) r.length_le_room

theorem holds_zeros (n : Nat) : (zeros n).Holds (0 : Fin n → ZMod 2) where
  length := rfl
  trim := trim_zeros n
  get i := get_zeros n i

theorem Holds.set (h : r.Holds x) (i : Fin n) (value : Bool) :
    (r.set i value).Holds (Function.update x i (if value then 1 else 0)) where
  length := (r.length_set i value).trans h.length
  trim := h.trim.set (h.lt_length i) value
  get j := by
    rw [get_set (h.lt_room i), h.get j]
    by_cases hij : i = j
    · subst hij
      cases value <;> simp
    · rw [if_neg (mt Fin.ext hij), Function.update_of_ne (Ne.symm hij)]

theorem Holds.flip (h : r.Holds x) (i : Fin n) : (r.flip i).Holds (x + Pi.single i 1) where
  length := (r.length_flip i).trans h.length
  trim := h.trim.flip (h.lt_length i)
  get j := by
    have hturned : ∀ a : ZMod 2, decide (a + 1 = 1) = !decide (a = 1) := by decide
    rw [get_flip (h.lt_room i), h.get j, Pi.add_apply]
    by_cases hij : i = j
    · subst hij
      rw [Pi.single_eq_same, hturned, decide_eq_true rfl, Bool.xor_true]
    · rw [decide_eq_false (mt Fin.ext hij), Pi.single_eq_of_ne (Ne.symm hij), add_zero,
        Bool.xor_false]

theorem Holds.xor (h : r.Holds x) (hs : s.Holds y) : (r.xor s).Holds (x + y) where
  length := h.length
  trim := h.trim.xor hs.trim (hs.length.trans h.length.symm)
  get i := by
    have hadded : ∀ a b : ZMod 2, decide (a + b = 1) = (decide (a = 1) ^^ decide (b = 1)) := by
      decide
    rw [hs.trim.get_xor (hs.length.trans h.length.symm), h.get i, hs.get i, Pi.add_apply, hadded]

section

variable {rows : Nat → BitRow} {xs : Nat → Fin n → ZMod 2}

theorem holds_update (h : ∀ row, (rows row).Holds (xs row)) (hr : r.Holds x) (row other : Nat) :
    (Function.update rows row r other).Holds (Function.update xs row x other) := by
  by_cases hother : other = row
  · subst hother
    rwa [Function.update_self, Function.update_self]
  · rw [Function.update_of_ne hother, Function.update_of_ne hother]
    exact h other

theorem holds_edit (h : ∀ row, (rows row).Holds (xs row)) (e : Edit n) (row : Nat) :
    (e.onRows rows row).Holds (e.onVectors xs row) := by
  cases e with
  | set edited i value => exact holds_update h ((h edited).set i value) edited row
  | flip edited i => exact holds_update h ((h edited).flip i) edited row
  | add edited other => exact holds_update h ((h edited).xor (h other)) edited row

theorem holds_foldl (h : ∀ row, (rows row).Holds (xs row)) (edits : List (Edit n)) (row : Nat) :
    (edits.foldl Edit.onRows rows row).Holds (edits.foldl Edit.onVectors xs row) := by
  induction edits generalizing rows xs with
  | nil => exact h row
  | cons e edits ih => exact ih (holds_edit h e)

end

theorem holds_edited (edits : List (Edit n)) (row : Nat) :
    (edited edits row).Holds (vectors edits row) :=
  holds_foldl (fun _ => holds_zeros n) edits row

/-- Rows that are edited within their length are vectors over GF(2), and have no entry past it.
So their ones are counted and found in whole blocks as they are listed one by one, and rows
are equal, or have equal blocks, where they agree at each entry. -/
theorem vectors_of_edits (edits : List (Edit n)) (row : Nat) :
    let r := edited edits row
    (∀ i : Fin n, r.get i = true ↔ vectors edits row i = 1) ∧
      (∀ i, n ≤ i → r.get i = false) ∧
      r.ones.Pairwise (· < ·) ∧
      (∀ i, i ∈ r.ones ↔ ∃ h : i < n, vectors edits row ⟨i, h⟩ = 1) ∧
      r.count = r.ones.length ∧ r.first? = r.ones.head? ∧ (r.isZero = true ↔ r.ones = []) ∧
      r.ReadInBlocks r.ones ∧
      ∀ (edits' : List (Edit n)) row', let s := edited edits' row'
        (r = s ↔ ∀ i < n, r.get i = s.get i) ∧
        ((∀ k < r.blockCount, r.block k = s.block k) ↔ r = s) := by
  intro r
  have h := holds_edited edits row
  have hget (i : Fin n) : r.get i = true ↔ vectors edits row i = 1 := by
    rw [h.get i, decide_eq_true_iff]
  have hones (i : Nat) : i ∈ r.ones ↔ ∃ h : i < n, vectors edits row ⟨i, h⟩ = 1 := by
    rw [mem_ones, h.length, ← exists_prop]
    exact exists_congr fun hi => hget ⟨i, hi⟩
  refine ⟨hget, fun i hi => h.trim i (h.length.trans_le hi), r.pairwise_ones, hones,
    h.trim.count_eq, h.trim.first?_eq, h.trim.isZero_iff, h.trim.readInBlocks,
    fun edits' row' => ?_⟩
  have hs := holds_edited edits' row'
  have hlength := h.length.trans hs.length.symm
  refine ⟨?_, h.trim.block_eq_iff hs.trim hlength⟩
  rw [h.trim.eq_iff hs.trim hlength, h.length]

/-- An edit in each of three blocks. The row after it is taken to zero again. -/
example :
    let edits : List (Edit 130) := [.set 0 0 true, .set 0 64 true, .flip 0 129, .add 1 0, .add 1 0]
    (edited edits 0).ones = [0, 64, 129] ∧ (edited edits 0).count = 3 ∧
      (edited edits 1).first? = none := by
  decide +kernel

end ShaDiff.BitRow
