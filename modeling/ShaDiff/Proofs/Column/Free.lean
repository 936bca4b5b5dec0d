import ShaDiff.Proofs.Column
import ShaDiff.Proofs.Topology.Readers

/-!
# Columns of which nothing is known

If each input of a gate is zero or may be anything, any pair can be given to a free input,
and to some free inputs at once so that an output gets it. So a column of which nothing is
known is not contradictory, and no free bit is refined except a highest carry for which
there are too few free inputs (`propagate_free`).
-/

namespace ShaDiff

theorem Condition.eq_any {c : Condition} (h : ∀ p, c.allows p = true) : c = .any :=
  ext fun p => (h p).trans (allows_any p).symm

theorem Gate.getElem?_digits {places k : Nat} (number : Nat) (h : k < places) :
    (digits places number)[k]? = some (number.testBit (places - 1 - k)) := by
  induction places generalizing k with
  | zero => cases h
  | succ places ih =>
    cases k with
    | zero => rfl
    | succ k =>
      rw [digits, List.getElem?_cons_succ, ih (Nat.lt_of_succ_lt_succ h)]
      congr 2
      omega

section

variable {cs : List Condition} {ps : List Pair} {p : Pair} {i : Nat}

theorem Condition.Allow.set {c : Condition} (h : Condition.Allow cs ps) (hc : cs[i]? = some c)
    (hp : c.allows p = true) : Condition.Allow cs (ps.set i p) := by
  induction h generalizing i with
  | nil => cases hc
  | cons hd htail ih =>
    cases i with
    | zero =>
      obtain rfl := Option.some.inj hc
      exact .cons hp htail
    | succ i => exact .cons hd (ih hc)

theorem Condition.Allow.allows_of_getElem? {c : Condition} (h : Condition.Allow cs ps)
    (hc : cs[i]? = some c) (hp : ps[i]? = some p) : c.allows p = true := by
  induction h generalizing i with
  | nil => cases hc
  | cons hd _ ih =>
    cases i with
    | zero =>
      obtain rfl := Option.some.inj hc
      obtain rfl := Option.some.inj hp
      exact hd
    | succ i => exact ih hc hp

end

namespace Column

open Condition (Allow)

variable {g : Gate} {cs inputs : List Condition} {p : Pair} {k : Nat}

def nought : Pair := ⟨false, false⟩

/-- Gives a pair to so many of the free inputs and nought to all others. -/
def spread (p : Pair) : (free : Nat) → List Condition → List Pair
  | _, [] => []
  | 0, _ :: cs => nought :: spread p 0 cs
  | free + 1, c :: cs =>
    if c = .any then p :: spread p free cs else nought :: spread p (free + 1) cs

theorem allow_spread (h : ∀ c ∈ cs, c.allows nought = true) (free : Nat) :
    Allow cs (spread p free cs) := by
  induction cs generalizing free with
  | nil => cases free <;> exact .nil
  | cons c cs ih =>
    obtain ⟨hc, hcs⟩ := List.forall_mem_cons.mp h
    cases free with
    | zero => exact .cons hc (ih hcs 0)
    | succ free =>
      unfold spread
      split
      · next hany => exact .cons (hany ▸ Condition.allows_any p) (ih hcs free)
      · exact .cons hc (ih hcs (free + 1))

theorem count_spread {f : Pair → Bool} (hf : f nought = false) {free : Nat}
    (h : free ≤ cs.count .any) :
    ((spread p free cs).map f).count true = if f p then free else 0 := by
  induction cs generalizing free with
  | nil =>
    obtain rfl := Nat.le_zero.mp h
    simp [spread]
  | cons c cs ih =>
    cases free with
    | zero => simpa [spread, hf] using ih (Nat.zero_le _)
    | succ free =>
      unfold spread
      split
      · next hany =>
        have hfree : free ≤ cs.count .any := by simpa [hany] using h
        cases hp : f p <;> simp [hp, ih hfree]
      · next hne =>
        have hfree : free + 1 ≤ cs.count .any := by simpa [List.count_cons, hne] using h
        simpa [hf] using ih hfree

/-- What an addition writes if so many inputs get the pair that the digit alone is set. -/
theorem image_add {n places : Nat} (hk : k < places)
    (h : 1 <<< (places - 1 - k) ≤ inputs.count .any) :
    (image (.add n) places (spread p (1 <<< (places - 1 - k)) inputs))[k]? = some p := by
  have hdigit (f : Pair → Bool) (hf : f nought = false) :
      ((Gate.add n).write places ((spread p (1 <<< (places - 1 - k)) inputs).map f))[k]? =
        some (f p) := by
    rw [Gate.write, Gate.getElem?_digits _ hk, count_spread hf h]
    cases f p <;> simp [Nat.one_shiftLeft]
  rw [image, List.getElem?_zipWith, hdigit _ rfl, hdigit _ rfl]

/-- What a gate with one output writes if each free input that matters gets the pair. -/
theorem image_function (hg : g = .xor3 ∨ g = .maj ∨ g = .ch) (hl : inputs.length = 3)
    (h : g.demand 0 ≤ inputs.count .any) :
    (image g 1 (spread p (g.demand 0) inputs))[0]? = some p := by
  match inputs, hl with
  | [a, b, c], _ =>
    rcases p with ⟨p, q⟩
    rcases hg with rfl | rfl | rfl
    · by_cases ha : a = Condition.any <;> by_cases hb : b = Condition.any <;>
        by_cases hc : c = Condition.any <;>
        simp_all [Gate.demand, spread, image, Gate.write, Gate.leading, nought]
    all_goals
      have hall : a = Condition.any ∧ b = Condition.any ∧ c = Condition.any := by
        by_cases ha : a = Condition.any <;> by_cases hb : b = Condition.any <;>
        by_cases hc : c = Condition.any <;>
          simp_all [Gate.demand]
      obtain ⟨rfl, rfl, rfl⟩ := hall
      cases p <;> cases q <;> decide

theorem image_spread (hl : inputs.length = g.arity) (hk : k < g.width)
    (h : g.demand k ≤ inputs.count .any) :
    (image g g.width (spread p (g.demand k) inputs))[k]? = some p := by
  cases g with
  | add n => exact image_add hk h
  | xor3 =>
    obtain rfl := Nat.lt_one_iff.mp hk
    exact image_function (.inl rfl) hl h
  | maj =>
    obtain rfl := Nat.lt_one_iff.mp hk
    exact image_function (.inr (.inl rfl)) hl h
  | ch =>
    obtain rfl := Nat.lt_one_iff.mp hk
    exact image_function (.inr (.inr rfl)) hl h

theorem propagate_free (hl : inputs.length = g.arity)
    (hi : ∀ c ∈ inputs, c = Condition.zero ∨ c = Condition.any) :
    ∃ outcome, propagate g inputs (List.replicate g.width .any) = some outcome ∧
      (∀ (i : Nat) c, outcome.inputs[i]? = some c → inputs[i]? = some .any → c = .any) ∧
      ∀ (k : Nat) c, outcome.outputs[k]? = some c → g.demand k ≤ inputs.count .any → c = .any := by
  have hnought : ∀ c ∈ inputs, c.allows nought = true := by
    intro c hc
    rcases hi c hc with rfl | rfl <;> decide
  have hany (ps : List Pair) : Allow (List.replicate g.width .any) (image g g.width ps) := by
    refine List.forall₂_iff_get.mpr ⟨by simp [length_image], fun j hj _ => ?_⟩
    simp [Condition.allows_any]
  have hsound (ps : List Pair) (hps : Allow inputs ps) :=
    propagate_sound (g := g) hps (hany ps) (by simp)
  obtain ⟨outcome, houtcome, -⟩ := hsound _ (allow_spread hnought (p := nought) 0)
  have hallow (ps : List Pair) (hps : Allow inputs ps) :
      Allow outcome.inputs ps ∧ Allow outcome.outputs (image g g.width ps) := by
    obtain ⟨outcome', houtcome', hin, hout, -⟩ := hsound ps hps
    obtain rfl := Option.some.inj (houtcome.symm.trans houtcome')
    exact ⟨hin, hout⟩
  refine ⟨outcome, houtcome, fun i c hc hany => ?_, fun k c hc hdemand => ?_⟩
  · refine Condition.eq_any fun p => ?_
    have hps := (allow_spread hnought (p := nought) 0).set hany (Condition.allows_any p)
    refine (hallow _ hps).1.allows_of_getElem? hc (List.getElem?_set_self ?_)
    obtain ⟨hlt, -⟩ := List.getElem?_eq_some_iff.mp hany
    rwa [← (allow_spread hnought (p := nought) 0).length_eq]
  · refine Condition.eq_any fun p => ?_
    have hps := hallow _ (allow_spread hnought (p := p) (g.demand k))
    refine hps.2.allows_of_getElem? hc (image_spread hl ?_ hdemand)
    obtain ⟨hlt, -⟩ := List.getElem?_eq_some_iff.mp hc
    rwa [hps.2.length_eq, length_image] at hlt

end Column

end ShaDiff
