import ShaDiff.Proofs.Sum.Derivation
import ShaDiff.Proofs.Word

/-!
# Signed differences of words as numbers

The signed difference of a word is the difference of the two numbers it is in a pair of
instances. So words that sum up modulo two to the number of bits in both instances sum
up in their signed differences.
-/

namespace ShaDiff.Sum

variable {n : Nat}

/-- The signed difference of a word is that of its values as numbers. -/
theorem signedDifference_eq (f : Nat → Pair) :
    signedDifference ((List.range n).map f) =
      (weigh n fun j => (f j).first.toNat) - (weigh n fun j => (f j).second.toNat : Nat) := by
  induction n generalizing f with
  | zero => rfl
  | succ n ih =>
    have hsigned (p : Pair) : p.signed = p.first.toNat - p.second.toNat := by
      rcases p with ⟨_ | _, _ | _⟩ <;> rfl
    rw [List.range_succ_eq_map, List.map_cons, List.map_map, signedDifference,
      show f ∘ Nat.succ = fun j => f (j + 1) from rfl, ih, weigh, weigh, hsigned]
    omega

theorem toNat_wordValue (ν : Bit → Bool) (w : Nat) :
    (wordValue n ν w).toNat = weigh n fun j => (ν ⟨w, j⟩).toNat := by
  rw [toNat_eq_weigh]
  exact weigh_congr fun j hj => by rw [getLsbD_wordValue hj]

theorem dvd_total_sub_wordSum (ws : List (BitVec n)) :
    ((1 <<< n : Nat) : Int) ∣ total (ws.map fun w => (w.toNat : Int)) - (wordSum ws).toNat := by
  induction ws with
  | nil => exact ⟨0, by simp [total, wordSum]⟩
  | cons w ws ih =>
    obtain ⟨k, hk⟩ := ih
    refine ⟨k + ((w.toNat + (wordSum ws).toNat) / 1 <<< n : Nat), ?_⟩
    have hmod := Nat.div_add_mod (w.toNat + (wordSum ws).toNat) (1 <<< n)
    rw [wordSum, BitVec.toNat_add, ← Nat.one_shiftLeft, List.map_cons, total, Int.mul_add, ← hk,
      ← Int.natCast_mul]
    omega

/-- Words that sum up in both instances sum up in their signed differences. -/
theorem dvd_signedDifferences {σ : Bit → Pair} {positive negative : List Nat}
    (hfirst : wordSum (positive.map (wordValue n fun b => (σ b).first)) =
      wordSum (negative.map (wordValue n fun b => (σ b).first)))
    (hsecond : wordSum (positive.map (wordValue n fun b => (σ b).second)) =
      wordSum (negative.map (wordValue n fun b => (σ b).second))) :
    ((1 <<< n : Nat) : Int) ∣
      total (positive.map fun w => signedDifference ((List.range n).map fun j => σ ⟨w, j⟩)) -
        total (negative.map fun w => signedDifference ((List.range n).map fun j => σ ⟨w, j⟩)) := by
  have hsplit (ws : List Nat) :
      total (ws.map fun w => signedDifference ((List.range n).map fun j => σ ⟨w, j⟩)) =
        total ((ws.map (wordValue n fun b => (σ b).first)).map fun x => (x.toNat : Int)) -
          total ((ws.map (wordValue n fun b => (σ b).second)).map fun x => (x.toNat : Int)) := by
    induction ws with
    | nil => rfl
    | cons w ws ih =>
      rw [List.map_cons, total, ih, signedDifference_eq]
      simp only [List.map_cons, total, toNat_wordValue]
      omega
  obtain ⟨a, ha⟩ := dvd_total_sub_wordSum (positive.map (wordValue n fun b => (σ b).first))
  obtain ⟨b, hb⟩ := dvd_total_sub_wordSum (positive.map (wordValue n fun b => (σ b).second))
  obtain ⟨c, hc⟩ := dvd_total_sub_wordSum (negative.map (wordValue n fun b => (σ b).first))
  obtain ⟨d, hd⟩ := dvd_total_sub_wordSum (negative.map (wordValue n fun b => (σ b).second))
  rw [hsplit, hsplit]
  refine ⟨a - b - c + d, ?_⟩
  rw [hfirst] at ha
  rw [hsecond] at hb
  rw [Int.mul_add, Int.mul_sub, Int.mul_sub, ← ha, ← hb, ← hc, ← hd]
  omega

end ShaDiff.Sum
