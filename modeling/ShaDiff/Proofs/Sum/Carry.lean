import ShaDiff.Proofs.Sum.Islands

/-!
# Settling columns loses no pair

Pairs whose signed differences sum to the constant make a path of carries through
the columns (`path_of_dvd`): as the sum agrees with the constant modulo two to the
number of columns, every column is even once its carry and target are counted.
Each such path is found going up and kept coming back. So the columns are settled,
and what is settled allows the pairs on the path and knows their patterns
(`settle_sound`).
-/

namespace ShaDiff

-- ---------------------------------------------------------------------------
-- Signed differences
-- ---------------------------------------------------------------------------

theorem Pair.differs_eq (p : Pair) : p.differs = (p.signed != 0) := by
  have key : ∀ p ∈ Pair.all, p.differs = (p.signed != 0) := by decide
  exact key p p.mem_all

theorem Condition.allows_ofSigned (p : Pair) : (ofSigned p.signed).allows p = true := by
  have key : ∀ p ∈ Pair.all, (ofSigned p.signed).allows p = true := by decide
  exact key p p.mem_all

theorem Condition.signed_mem {c : Condition} {p : Pair} (h : c.allows p = true) :
    p.signed ∈ c.signedDifferences := by
  have key : ∀ m : BitVec 4, ∀ p ∈ Pair.all, (Condition.mk m).allows p = true →
      p.signed ∈ (Condition.mk m).signedDifferences := by decide
  exact key c.mask p p.mem_all h

theorem Condition.signed_of_signed? {c : Condition} {p : Pair} (h : c.allows p = true) :
    c.signed? = if c.grounded then some p.signed else none := by
  have key : ∀ m : BitVec 4, ∀ p ∈ Pair.all, (Condition.mk m).allows p = true →
      (Condition.mk m).signed? = if (Condition.mk m).grounded then some p.signed else none := by
    decide
  exact key c.mask p p.mem_all h

namespace Sum

open Condition (Allow Covers)

-- ---------------------------------------------------------------------------
-- Paths of carries
-- ---------------------------------------------------------------------------

def signedTotal : List (List Pair) → Int
  | [] => 0
  | ps :: pss => total (ps.map (·.signed)) + 2 * signedTotal pss

/-- Whether the pairs take a carry into the first column through all columns. -/
inductive Path : List (List Pair) → (constant : Nat) → (carry : Int) → Prop
  | nil : Path [] constant carry
  | cons : carryOut? carry (ps.map (·.signed)) (constant % 2 == 1) = some out →
      Path pss (constant / 2) out → Path (ps :: pss) constant carry

theorem path_of_dvd {pss : List (List Pair)} {constant : Nat} {carry : Int}
    (h : ((1 <<< pss.length : Nat) : Int) ∣ carry + signedTotal pss - constant) :
    Path pss constant carry := by
  induction pss generalizing constant carry with
  | nil => exact .nil
  | cons ps pss ih =>
    obtain ⟨k, hk⟩ := h
    rw [List.length_cons, Nat.shiftLeft_succ, signedTotal, Int.natCast_mul, Int.mul_assoc] at hk
    have htarget : (constant : Int) = 2 * (constant / 2 : Nat) + (constant % 2 == 1).toInt := by
      rcases Nat.mod_two_eq_zero_or_one constant with h | h <;> simp [h] <;> omega
    have heven : (carry + total (ps.map (·.signed)) - (constant % 2 == 1).toInt) % 2 = 0 := by
      omega
    exact .cons (if_pos heven) (ih ⟨k, by omega⟩)

-- ---------------------------------------------------------------------------
-- Settled columns
-- ---------------------------------------------------------------------------

theorem allow_restrict {column : List Condition} {contributions : List (List Int)} {ps : List Pair}
    (h : Allow column ps) (hl : ∀ ds ∈ contributions, ds.length = column.length)
    (hmem : ps.map (·.signed) ∈ contributions) : Allow (restrict column contributions) ps := by
  have hlength : (List.replicate column.length Condition.never).length = column.length :=
    List.length_replicate
  have hcover : Covers .ofSigned _ (ps.map (·.signed)) :=
    Condition.covers_foldl hlength hl (.inl hmem)
  rw [Covers, List.forall₂_map_right_iff] at hcover
  unfold restrict
  generalize contributions.foldl _ _ = used at hcover
  clear hlength hl hmem
  induction h generalizing used with
  | nil => exact .nil
  | cons hp _ ih =>
    obtain _ | ⟨hu, hcover⟩ := hcover
    refine .cons ?_ (ih _ hcover)
    rw [Condition.allows_inter, hp, hu _ (Condition.allows_ofSigned _)]
    rfl

def Settled.Keeps (s : Settled) (ps : List Pair) : Prop :=
  Allow s.conditions ps ∧ ps.map (·.differs) ∈ s.patterns

theorem settle_sound {columns : List (List Condition)} {pss : List (List Pair)} {constant : Nat}
    {carry : Int} {carries : List Int} (h : List.Forall₂ Allow columns pss)
    (hp : Path pss constant carry) (hc : carry ∈ carries) :
    ∃ alive settled, settle columns constant carries = some (alive, settled) ∧
      carry ∈ alive ∧ List.Forall₂ Settled.Keeps settled pss := by
  induction h generalizing constant carry carries with
  | nil => exact ⟨carries, [], rfl, hc, .nil⟩
  | @cons column ps columns pss hallow _ ih =>
    obtain _ | ⟨hout, hp⟩ := hp
    rename_i out
    have hoption : ps.map (·.signed) ∈ selections (column.map (·.signedDifferences)) := by
      rw [mem_selections, List.forall₂_map_left_iff, List.forall₂_map_right_iff]
      exact hallow.flip.imp fun _ _ hp => Condition.signed_mem hp
    have hway : ⟨carry, ps.map (·.signed), out⟩ ∈ ways column (constant % 2 == 1) carries :=
      mem_ways.mpr ⟨hc, hoption, hout⟩
    obtain ⟨alive, settled, hrest, halive, hkeeps⟩ := ih hp (mem_leaving.mpr ⟨_, hway, rfl⟩)
    simp only [settle]
    rw [if_neg (by simp [List.ne_nil_of_mem hway]), hrest]
    have hkept := mem_keep.mpr ⟨hway, halive⟩
    have hmem : ps.map (·.signed) ∈
        (keep (ways column (constant % 2 == 1) carries) alive).map (·.contributions) :=
      List.mem_map.mpr ⟨_, hkept, rfl⟩
    refine ⟨_, _, rfl, mem_entering.mpr ⟨_, hkept, rfl⟩, .cons ⟨?_, ?_⟩ hkeeps⟩
    · refine allow_restrict hallow (fun ds hds => ?_) hmem
      obtain ⟨way, hway, rfl⟩ := List.mem_map.mp hds
      exact length_contributions (mem_keep.mp hway).1
    · refine List.mem_map.mpr ⟨_, hmem, ?_⟩
      simp only [List.map_map]
      exact List.map_congr_left fun p _ => p.differs_eq.symm

end Sum

end ShaDiff
