import ShaDiff.Proofs.Column.Free

/-!
# A column is refined exactly

A column is solved by pairs of its inputs that the conditions allow, if they also allow what
the gate makes of them. A refined condition allows just the pairs that some solution has at
the position, and a column without solution is contradictory. Stronger conditions leave
fewer solutions, so propagation of a column is monotone (`propagate_mono`).
-/

namespace ShaDiff.Column

open Condition (Allow)

variable {g : Gate} {inputs outputs inputs' outputs' : List Condition} {ps : List Pair}
  {outcome outcome' : Outcome} {c : Condition} {p : Pair} {i k : Nat}

def Solves (g : Gate) (inputs outputs : List Condition) (ps : List Pair) : Prop :=
  Allow inputs ps ∧ Allow outputs (image g outputs.length ps)

theorem allow_of_allowed {cs : List Condition} (hl : cs.length = ps.length)
    (h : allowed cs ps = true) : Allow cs ps := by
  induction cs generalizing ps with
  | nil =>
    rw [List.eq_nil_of_length_eq_zero hl.symm]
    exact .nil
  | cons c cs ih =>
    cases ps with
    | nil => cases hl
    | cons p ps =>
      obtain ⟨hp, h⟩ := Bool.and_eq_true_iff.mp h
      exact .cons hp (ih (Nat.succ.inj hl) h)

theorem mem_survivors_iff {s : List Pair} : s ∈ survivors g inputs outputs ↔
    ∃ ps, Solves g inputs outputs ps ∧ s = ps ++ image g outputs.length ps := by
  constructor
  · intro h
    obtain ⟨ps, hps, h⟩ := List.mem_filterMap.mp h
    simp only [Option.ite_none_right_eq_some, Option.some.injEq] at h
    obtain ⟨hallowed, rfl⟩ := h
    refine ⟨ps, ⟨?_, allow_of_allowed (length_image _ _ _).symm hallowed⟩, rfl⟩
    rw [mem_selections, List.forall₂_map_right_iff] at hps
    exact hps.flip.imp fun _ _ hp => Condition.mem_pairs.mp hp
  · rintro ⟨ps, ⟨hi, ho⟩, rfl⟩
    exact mem_survivors hi ho

theorem exists_getElem?_seen {survivors : List (List Pair)} {n : Nat}
    (hl : ∀ s ∈ survivors, s.length = n) (hk : k < n) :
    ∃ c, (seen survivors n)[k]? = some c ∧
      ∀ p, c.allows p = true ↔ ∃ s ∈ survivors, s[k]? = some p := by
  have hstart : (List.replicate n Condition.never)[k]? = some .never := by simp [hk]
  obtain ⟨c, hc, hallows⟩ :=
    Condition.exists_getElem?_foldl (fun s hs => (hl s hs).symm ▸ hk) hstart
  refine ⟨c, hc, fun p => ?_⟩
  rw [hallows, Condition.allows_never, or_iff_right Bool.false_ne_true]
  simp only [Condition.allows_only, decide_eq_true_eq, exists_eq_right]

theorem length_seen {survivors : List (List Pair)} {n : Nat}
    (hl : ∀ s ∈ survivors, s.length = n) : (seen survivors n).length = n :=
  Condition.length_foldl List.length_replicate hl

-- ---------------------------------------------------------------------------
-- Outcomes
-- ---------------------------------------------------------------------------

/-- Whether an outcome refines each condition to the pairs that solutions have there. -/
structure Exact (g : Gate) (inputs outputs : List Condition) (outcome : Outcome) : Prop where
  length_inputs : outcome.inputs.length = inputs.length
  length_outputs : outcome.outputs.length = outputs.length
  solvable : ∃ ps, Solves g inputs outputs ps
  allows : ∀ {k : Nat} {c : Condition}, (outcome.inputs ++ outcome.outputs)[k]? = some c → ∀ p,
    c.allows p = true ↔
      ∃ ps, Solves g inputs outputs ps ∧ (ps ++ image g outputs.length ps)[k]? = some p

theorem propagate_eq_none : propagate g inputs outputs = none ↔
    ∀ ps, ¬ Solves g inputs outputs ps := by
  unfold propagate
  dsimp only
  split
  · next hempty =>
    simp only [true_iff]
    intro ps hps
    have hmem := mem_survivors_iff.mpr ⟨ps, hps, rfl⟩
    rw [List.isEmpty_iff.mp hempty] at hmem
    cases hmem
  · next hne =>
    simp only [reduceCtorEq, false_iff, not_forall, not_not]
    obtain ⟨s, hs⟩ := List.exists_mem_of_ne_nil _ (mt List.isEmpty_iff.mpr hne)
    obtain ⟨ps, hps, -⟩ := mem_survivors_iff.mp hs
    exact ⟨ps, hps⟩

theorem exact_propagate (h : propagate g inputs outputs = some outcome) :
    Exact g inputs outputs outcome := by
  have hsolvable : ∃ ps, Solves g inputs outputs ps := by
    by_contra hnone
    rw [propagate_eq_none.mpr (not_exists.mp hnone)] at h
    cases h
  have hl : ∀ s ∈ survivors g inputs outputs, s.length = inputs.length + outputs.length :=
    fun s hs => length_of_mem_survivors hs
  have hlength := length_seen hl
  unfold propagate at h
  dsimp only at h
  split at h
  · cases h
  · obtain rfl := Option.some.inj h
    refine ⟨?_, ?_, hsolvable, fun {k c} hc p => ?_⟩
    · simp [hlength]
    · simp [hlength]
    · rw [List.take_append_drop] at hc
      obtain ⟨hk, -⟩ := List.getElem?_eq_some_iff.mp hc
      obtain ⟨d, hd, hallows⟩ := exists_getElem?_seen hl (hlength ▸ hk)
      obtain rfl := Option.some.inj (hc.symm.trans hd)
      rw [hallows]
      constructor
      · rintro ⟨s, hs, hp⟩
        obtain ⟨ps, hps, rfl⟩ := mem_survivors_iff.mp hs
        exact ⟨ps, hps, hp⟩
      · rintro ⟨ps, hps, hp⟩
        exact ⟨_, mem_survivors_iff.mpr ⟨ps, hps, rfl⟩, hp⟩

def Within (cs ds : List Condition) : Prop :=
  List.Forall₂ (fun c d => c.subset d = true) cs ds

theorem Within.allow {cs ds : List Condition} (h : Within cs ds) (hps : Allow cs ps) :
    Allow ds ps := by
  induction h generalizing ps with
  | nil => exact hps
  | cons hc _ ih =>
    obtain _ | ⟨hp, hps⟩ := hps
    exact .cons (Condition.subset_iff.mp hc _ hp) (ih hps)

theorem within_of_allows {cs ds : List Condition} (hl : cs.length = ds.length)
    (h : ∀ (k : Nat) c d, cs[k]? = some c → ds[k]? = some d →
      ∀ p, c.allows p = true → d.allows p = true) : Within cs ds := by
  refine List.forall₂_iff_get.mpr ⟨hl, fun k hc hd => Condition.subset_iff.mpr ?_⟩
  exact h k _ _ (List.getElem?_eq_getElem hc) (List.getElem?_eq_getElem hd)

theorem Within.getElem? {cs ds : List Condition} {d : Condition} (h : Within cs ds)
    (hd : ds[i]? = some d) : ∃ c, cs[i]? = some c ∧ c.subset d = true := by
  obtain ⟨hlt, rfl⟩ := List.getElem?_eq_some_iff.mp hd
  obtain ⟨hlength, hall⟩ := List.forall₂_iff_get.mp h
  exact ⟨_, List.getElem?_eq_getElem (hlength ▸ hlt), hall i (hlength ▸ hlt) hlt⟩

theorem Within.split {cs cs' ds ds' : List Condition} (h : Within (cs ++ cs') (ds ++ ds'))
    (hl : cs.length = ds.length) : Within cs ds ∧ Within cs' ds' := by
  have htake := List.forall₂_take cs.length h
  have hdrop := List.forall₂_drop cs.length h
  rw [List.take_left, hl, List.take_left] at htake
  rw [List.drop_left, hl, List.drop_left] at hdrop
  exact ⟨htake, hdrop⟩

theorem Solves.mono (h : Solves g inputs outputs ps) (hi : Within inputs inputs')
    (ho : Within outputs outputs') : Solves g inputs' outputs' ps :=
  ⟨hi.allow h.1, List.Forall₂.length_eq ho ▸ ho.allow h.2⟩

theorem propagate_mono (hi : Within inputs inputs') (ho : Within outputs outputs')
    (h : propagate g inputs outputs = some outcome) :
    ∃ outcome', propagate g inputs' outputs' = some outcome' ∧
      Within outcome.inputs outcome'.inputs ∧ Within outcome.outputs outcome'.outputs := by
  have hexact := exact_propagate h
  obtain ⟨ps, hps⟩ := hexact.solvable
  cases h' : propagate g inputs' outputs' with
  | none => exact absurd (hps.mono hi ho) (propagate_eq_none.mp h' ps)
  | some outcome' =>
    have hexact' := exact_propagate h'
    have hlength : outcome.inputs.length = outcome'.inputs.length := by
      rw [hexact.length_inputs, hexact'.length_inputs, List.Forall₂.length_eq hi]
    refine ⟨outcome', rfl, Within.split (within_of_allows ?_ fun k c d hc hd p hp => ?_) hlength⟩
    · rw [List.length_append, List.length_append, hlength, hexact.length_outputs,
        hexact'.length_outputs, List.Forall₂.length_eq ho]
    · obtain ⟨qs, hqs, hp⟩ := (hexact.allows hc p).mp hp
      refine (hexact'.allows hd p).mpr ⟨qs, hqs.mono hi ho, ?_⟩
      rwa [← List.Forall₂.length_eq ho]

theorem Exact.within (h : Exact g inputs outputs outcome) :
    Within outcome.inputs inputs ∧ Within outcome.outputs outputs := by
  refine Within.split (within_of_allows ?_ fun k c d hc hd p hp => ?_) h.length_inputs
  · rw [List.length_append, List.length_append, h.length_inputs, h.length_outputs]
  · obtain ⟨ps, ⟨hi, ho⟩, hp⟩ := (h.allows hc p).mp hp
    exact Condition.Allow.allows_of_getElem? (List.rel_append hi ho) hd hp

theorem Exact.ne_never (h : Exact g inputs outputs outcome)
    (hc : c ∈ outcome.inputs ++ outcome.outputs) : c ≠ .never := by
  rintro rfl
  obtain ⟨k, hk⟩ := List.getElem?_of_mem hc
  obtain ⟨ps, hi, ho⟩ := h.solvable
  have hlength : k < (ps ++ image g outputs.length ps).length := by
    obtain ⟨hlt, -⟩ := List.getElem?_eq_some_iff.mp hk
    rw [List.length_append, h.length_inputs, h.length_outputs] at hlt
    rwa [List.length_append, length_image, ← hi.length_eq]
  have hallows := (h.allows hk _).mpr ⟨ps, ⟨hi, ho⟩, List.getElem?_eq_getElem hlength⟩
  rw [Condition.allows_never] at hallows
  cases hallows

-- ---------------------------------------------------------------------------
-- Places that show the same bit
-- ---------------------------------------------------------------------------

theorem Exact.allows_input (h : Exact g inputs outputs outcome) (hc : outcome.inputs[i]? = some c)
    (p : Pair) : c.allows p = true ↔ ∃ ps, Solves g inputs outputs ps ∧ ps[i]? = some p := by
  obtain ⟨hi, -⟩ := List.getElem?_eq_some_iff.mp hc
  rw [h.allows (by rw [List.getElem?_append_left hi, hc])]
  refine exists_congr fun ps => and_congr_right fun hps => ?_
  rw [List.getElem?_append_left]
  rwa [← hps.1.length_eq, ← h.length_inputs]

theorem image_xor3_swap {x y z : Pair} {places : Nat} {i j : Nat} (hi : i < 3) (hj : j < 3) :
    image .xor3 places (([x, y, z].set i [x, y, z][j]).set j [x, y, z][i]) =
      image .xor3 places [x, y, z] := by
  have hwrite (f : Pair → Bool) : Gate.xor3.write places
      ((([x, y, z].set i [x, y, z][j]).set j [x, y, z][i]).map f) =
        Gate.xor3.write places ([x, y, z].map f) := by
    match i, j with
    | 0, 0 | 1, 1 | 2, 2 => rfl
    | 0, 1 | 1, 0 => simp [Gate.write, Bool.xor_comm (f x)]
    | 0, 2 | 2, 0 => simp [Gate.write, Bool.xor_comm, Bool.xor_left_comm]
    | 1, 2 | 2, 1 => simp [Gate.write, Bool.xor_comm (f y)]
  rw [image, hwrite, hwrite, image]

theorem allow_swap {cs : List Condition} {ps : List Pair} {j : Nat} (h : Allow cs ps)
    (hsame : cs[i]? = cs[j]?) (hi : i < ps.length) (hj : j < ps.length) :
    Allow cs ((ps.set i ps[j]).set j ps[i]) := by
  have hci := List.getElem?_eq_getElem (h.length_eq ▸ hi)
  have hcj := List.getElem?_eq_getElem (h.length_eq ▸ hj)
  have hfirst := h.set (hsame.trans hcj) (h.allows_of_getElem? hcj (List.getElem?_eq_getElem hj))
  exact hfirst.set (hsame.symm.trans hci) (h.allows_of_getElem? hci (List.getElem?_eq_getElem hi))

theorem Exact.eq_of_xor3 (h : Exact .xor3 inputs outputs outcome) (hl : inputs.length = 3)
    {j : Nat} {d : Condition} (hsame : inputs[i]? = inputs[j]?)
    (hc : outcome.inputs[i]? = some c) (hd : outcome.inputs[j]? = some d) : c = d := by
  -- Swapping the pairs of both places leaves a solution.
  have hswap {i j : Nat} {c d : Condition} (hsame : inputs[i]? = inputs[j]?)
      (hc : outcome.inputs[i]? = some c) (hd : outcome.inputs[j]? = some d) (p : Pair)
      (hp : c.allows p = true) : d.allows p = true := by
    obtain ⟨ps, ⟨hi, ho⟩, hpi⟩ := (h.allows_input hc p).mp hp
    have hilt := (List.getElem?_eq_some_iff.mp hc).1
    have hjlt := (List.getElem?_eq_some_iff.mp hd).1
    rw [h.length_inputs, hl] at hilt hjlt
    match ps, hl.symm.trans hi.length_eq with
    | [x, y, z], _ =>
      refine (h.allows_input hd p).mpr ⟨_, ⟨allow_swap hi hsame hilt hjlt, ?_⟩, ?_⟩
      · rw [image_xor3_swap hilt hjlt]
        exact ho
      · rw [List.getElem?_set_self (by simpa using hjlt), ← hpi, List.getElem?_eq_getElem hilt]
  exact Condition.ext fun p =>
    Bool.eq_iff_iff.mpr ⟨hswap hsame hc hd p, hswap hsame.symm hd hc p⟩

end ShaDiff.Column
