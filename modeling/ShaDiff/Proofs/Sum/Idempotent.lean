import Mathlib.Data.List.Sort
import ShaDiff.Proofs.Sum.Balance

/-!
# A refined sum is refined no further

The refined words of a sum have just the balances which the given ones have
(`Refines.balances_iff`). Grounded words stay grounded, so no more words are open afterwards
and those that are stay on one side. Then the words are skipped if all of them are grounded
now. Otherwise they are refined to themselves, with the same relations in the same order,
though fewer words may be left to derive (`checked_again`).
-/

namespace ShaDiff

theorem Condition.grounded_mono {c d : Condition} (h : c.subset d = true) (hne : c ≠ never)
    (hd : d.grounded = true) : c.grounded = true := by
  have key : ∀ c d : BitVec 4, (Condition.mk c).subset ⟨d⟩ = true → c ≠ 0 →
      (Condition.mk d).grounded = true → (Condition.mk c).grounded = true := by decide
  exact key c.mask d.mask h (fun hc => hne (congrArg Condition.mk hc)) hd

namespace Sum

variable {words words' positive negative : List (List Condition)} {n : Nat} {σ : Nat → Nat → Pair}

-- ---------------------------------------------------------------------------
-- The order of relations
-- ---------------------------------------------------------------------------

namespace WordRelation

def Before (r s : WordRelation) : Prop :=
  r.column < s.column ∨ r.column = s.column ∧
    (r.first < s.first ∨ r.first = s.first ∧ r.second < s.second)

instance : Std.Irrefl Before where
  irrefl r h := by
    unfold Before at h
    omega

instance : Std.Antisymm Before where
  antisymm r s h h' := by
    unfold Before at h h'
    omega

end WordRelation

section

variable {places : List Nat}

theorem getD_lt_getD (hsorted : places.Pairwise (· < ·)) {k l : Nat} (hkl : k < l)
    (hl : l < places.length) : places.getD k 0 < places.getD l 0 := by
  have hk : k < places.length := Nat.lt_trans hkl hl
  simpa [hk, hl] using List.pairwise_iff_getElem.mp hsorted k l hk hl hkl

theorem pairwise_wordRelations (hsorted : places.Pairwise (· < ·)) (settled : List Settled) :
    (wordRelations places settled).Pairwise WordRelation.Before := by
  refine List.pairwise_flatten.mpr ⟨?_, List.pairwise_map.mpr ?_⟩
  · intro rs hrs
    obtain ⟨⟨s, column⟩, -, rfl⟩ := List.mem_map.mp hrs
    refine List.pairwise_map.mpr ((Relation.pairwise_all s.patterns places.length).imp_of_mem ?_)
    intro q q' hq hq' hbefore
    obtain ⟨-, hbound, -⟩ := Relation.sum_of_mem_all hq
    obtain ⟨hfirst', hsecond', -⟩ := Relation.sum_of_mem_all hq'
    refine .inr ⟨rfl, ?_⟩
    rcases hbefore with hlt | ⟨heq, hlt⟩
    · exact .inl (getD_lt_getD hsorted hlt hfirst')
    · exact .inr ⟨by rw [heq], getD_lt_getD hsorted hlt hsecond'⟩
  · have hcolumns : settled.zipIdx.Pairwise fun x y => x.2 < y.2 := by
      apply List.pairwise_map.mp
      simpa using List.pairwise_lt_range'
    refine hcolumns.imp fun hlt r hr s hs => ?_
    obtain ⟨_, -, rfl⟩ := List.mem_map.mp hr
    obtain ⟨_, -, rfl⟩ := List.mem_map.mp hs
    exact .inl hlt

end

-- ---------------------------------------------------------------------------
-- Refined words
-- ---------------------------------------------------------------------------

/-- Whether words allow at each bit just the pairs that the balances of a sum have there. -/
structure Refines (words positive negative : List (List Condition)) (n : Nat) : Prop where
  length : words.length = (positive ++ negative).length
  size : ∀ word ∈ words, word.length = n
  allows : ∀ {i j : Nat} {word : List Condition} {c : Condition}, words[i]? = some word →
    word[j]? = some c → ∀ p,
      c.allows p = true ↔ ∃ σ, Balances positive negative n σ ∧ σ i j = p

section

variable (h : Refines words positive negative n)
include h

theorem Refines.length_take : (words.take positive.length).length = positive.length := by
  simp [h.length]

theorem Refines.length_drop : (words.drop positive.length).length = negative.length := by
  simp [h.length]

/-- Refined words have the balances of the words they come from, and no others. -/
theorem Refines.balances_iff (hsize : ∀ word ∈ positive ++ negative, word.length = n) :
    Balances (words.take positive.length) (words.drop positive.length) n σ ↔
      Balances positive negative n σ := by
  unfold Balances
  rw [h.length_take, h.length_drop, List.take_append_drop]
  refine and_congr_left fun htotal => ⟨fun hfits => ?_, fun hfits => ?_⟩
  · refine (fits_iff hsize).mpr fun i hi j hj => ?_
    have hi' : i < words.length := h.length ▸ hi
    have hj' : j < words[i].length := (h.size _ (List.getElem_mem hi')).symm ▸ hj
    have hword := List.getElem?_eq_getElem hi'
    have hc := List.getElem?_eq_getElem hj'
    obtain ⟨τ, hτ, hsame⟩ := (h.allows hword hc (σ i j)).mp (hfits i j _ _ hword hc)
    rw [← hsame]
    exact (fits_iff hsize).mp hτ.1 i hi j hj
  · intro i j word c hword hc
    exact (h.allows hword hc (σ i j)).mpr ⟨σ, ⟨hfits, htotal⟩, rfl⟩

theorem Refines.eq_of_refines (hsize : ∀ word ∈ positive ++ negative, word.length = n)
    (h' : Refines words' (words.take positive.length) (words.drop positive.length) n) :
    words' = words := by
  apply List.ext_getElem
  · simp [h'.length]
  · intro i hi' hi
    apply List.ext_getElem
    · rw [h.size _ (List.getElem_mem hi), h'.size _ (List.getElem_mem hi')]
    · intro j hj' hj
      apply Condition.ext
      intro p
      have hallows := h.allows (List.getElem?_eq_getElem hi) (List.getElem?_eq_getElem hj) p
      have hallows' := h'.allows (List.getElem?_eq_getElem hi') (List.getElem?_eq_getElem hj') p
      simp only [h.balances_iff hsize] at hallows'
      exact Bool.eq_iff_iff.mpr (hallows'.trans hallows.symm)

variable (hsome : ∃ σ, Balances positive negative n σ)
include hsome

theorem Refines.ne_never {word : List Condition} (hword : word ∈ words) : .never ∉ word := by
  intro hmem
  obtain ⟨i, hi⟩ := List.getElem?_of_mem hword
  obtain ⟨j, hj⟩ := List.getElem?_of_mem hmem
  obtain ⟨σ, hσ⟩ := hsome
  have hallows := (h.allows hi hj (σ i j)).mpr ⟨σ, hσ, rfl⟩
  simp [Condition.allows_never] at hallows

theorem Refines.grounded (hsize : ∀ word ∈ positive ++ negative, word.length = n) :
    List.Forall₂ (fun w w' => isGrounded w = true → isGrounded w' = true)
      (positive ++ negative) words := by
  refine List.forall₂_iff_get.mpr ⟨h.length.symm, fun i hi hi' hgrounded => ?_⟩
  refine List.all_eq_true.mpr fun c hc => ?_
  obtain ⟨j, hj', rfl⟩ := List.getElem_of_mem hc
  have hj : j < (positive ++ negative)[i].length := by
    rwa [hsize _ (List.getElem_mem hi), ← h.size _ (List.getElem_mem hi')]
  refine Condition.grounded_mono (Condition.subset_iff.mpr fun p hp => ?_) ?_
    (List.all_eq_true.mp hgrounded _ (List.getElem_mem hj))
  · obtain ⟨σ, hσ, rfl⟩ :=
      (h.allows (List.getElem?_eq_getElem hi') (List.getElem?_eq_getElem hj') p).mp hp
    exact hσ.1 i j _ _ (List.getElem?_eq_getElem hi) (List.getElem?_eq_getElem hj)
  · intro hnever
    exact h.ne_never hsome (List.getElem_mem hi') (hnever ▸ hc)

end

-- ---------------------------------------------------------------------------
-- Open words
-- ---------------------------------------------------------------------------

theorem countP_open_le {ws ws' : List (List Condition)}
    (h : List.Forall₂ (fun w w' => isGrounded w = true → isGrounded w' = true) ws ws') :
    ws'.countP (!isGrounded ·) ≤ ws.countP (!isGrounded ·) := by
  induction h with
  | nil => exact Nat.le_refl _
  | @cons w w' _ _ hword _ ih =>
    simp only [List.countP_cons]
    cases hw : isGrounded w with
    | true =>
      simp only [hword hw, Bool.not_true, Bool.false_eq_true, if_false]
      omega
    | false =>
      simp only [Bool.not_false, if_true]
      split <;> omega

/-- A sum that says something still does when fewer words are open, unless none is. -/
theorem openWords?_eq_none_iff {ps ns : List (List Condition)} {places : List Nat}
    (hopen : openWords? positive negative = some places)
    (hp : ps.countP (!isGrounded ·) ≤ positive.countP (!isGrounded ·))
    (hn : ns.countP (!isGrounded ·) ≤ negative.countP (!isGrounded ·))
    (hnever : ∀ word ∈ ps ++ ns, .never ∉ word) :
    openWords? ps ns = none ↔ (ps ++ ns).all isGrounded = true := by
  have hzero : ps.countP (!isGrounded ·) = 0 ∧ ns.countP (!isGrounded ·) = 0 ↔
      (ps ++ ns).all isGrounded = true := by
    simp [List.countP_eq_zero]
  have hany : ((ps ++ ns).any (·.contains .never)) = false := by
    simpa [or_imp, forall_and] using hnever
  simp only [openWords?, Option.ite_none_left_eq_some] at hopen
  rw [← hzero]
  simp only [openWords?, hany, Bool.false_eq_true, if_false, ite_eq_left_iff, reduceCtorEq,
    imp_false, not_not]
  omega

theorem checked_of_open {places : List Nat} (hopen : openWords? positive negative = some places)
    (hsize : ∀ word ∈ positive ++ negative, word.length = n) :
    checked positive negative = .ok (propagate positive negative) := by
  have hsame := sameSize_of_length (size_opened hopen hsize)
  rw [opened] at hsame
  simp only [checked, hopen, hsame, if_true]

-- ---------------------------------------------------------------------------
-- Answers
-- ---------------------------------------------------------------------------

theorem Derivation.Exact.refines {relations : List WordRelation}
    (h : (Derivation.refined words relations).Exact positive negative n) :
    Refines words positive negative n := by
  obtain ⟨_, _, hrefined, hlength, hwords, -⟩ := h.refined nofun
  obtain ⟨rfl, rfl⟩ := Derivation.refined.inj hrefined
  refine ⟨by simp [hlength], fun word hword => ?_, fun hword hc => (hwords _ _ hword).2 _ _ hc⟩
  obtain ⟨i, hi⟩ := List.getElem?_of_mem hword
  exact (hwords i word hi).1

theorem Derivation.Exact.exists_balances {relations : List WordRelation}
    (h : (Derivation.refined words relations).Exact positive negative n) :
    ∃ σ, Balances positive negative n σ := by
  by_contra hnone
  cases h.contradiction.mpr hnone

theorem pairwise_relations {relations : List WordRelation} {places : List Nat}
    (hopen : openWords? positive negative = some places)
    (h : propagate positive negative = .refined words relations) :
    relations.Pairwise WordRelation.Before := by
  simp only [propagate, hopen] at h
  split at h
  · cases h
  · obtain ⟨-, rfl⟩ := Derivation.refined.inj h
    exact pairwise_wordRelations (ascending_places hopen) _

theorem Derivation.Exact.mem_relations_iff {relations relations' : List WordRelation}
    (hsize : ∀ word ∈ positive ++ negative, word.length = n)
    (h : (Derivation.refined words relations).Exact positive negative n)
    (h' : (Derivation.refined words' relations').Exact (words.take positive.length)
      (words.drop positive.length) n) (r : WordRelation) : r ∈ relations' ↔ r ∈ relations := by
  have hrefines := h.refines
  obtain ⟨_, _, hrefined, -, -, hmem⟩ := h.refined nofun
  obtain ⟨rfl, rfl⟩ := Derivation.refined.inj hrefined
  obtain ⟨_, _, hrefined', -, -, hmem'⟩ := h'.refined nofun
  obtain ⟨rfl, rfl⟩ := Derivation.refined.inj hrefined'
  rw [hmem, hmem', hrefines.length_take, hrefines.length_drop]
  simp only [ConstantAt, hrefines.balances_iff hsize]

theorem propagate_again {relations : List WordRelation} {places places' : List Nat}
    (hsize : ∀ word ∈ positive ++ negative, word.length = n) (hn : n ≤ Modular.bitsMax)
    (hopen : openWords? positive negative = some places)
    (h : propagate positive negative = .refined words relations)
    (hopen' : openWords? (words.take positive.length) (words.drop positive.length) = some places') :
    propagate (words.take positive.length) (words.drop positive.length) =
      .refined words relations := by
  have hexact := exact_propagate hopen hsize hn
  rw [h] at hexact
  have hrefines := hexact.refines
  have hexact' := exact_propagate hopen' (by simpa using hrefines.size) hn
  have hne : propagate (words.take positive.length) (words.drop positive.length) ≠
      .contradiction := by
    intro hcontradiction
    obtain ⟨σ, hσ⟩ := hexact.exists_balances
    exact hexact'.contradiction.mp hcontradiction ⟨σ, (hrefines.balances_iff hsize).mpr hσ⟩
  obtain ⟨words', relations', h', -⟩ := hexact'.refined hne
  rw [h'] at hexact'
  have hwords : words' = words := hrefines.eq_of_refines hsize hexact'.refines
  have hrelations : relations' = relations :=
    (pairwise_relations hopen' h').eq_of_mem_iff (pairwise_relations hopen h)
      (hexact.mem_relations_iff hsize hexact')
  rw [h', hwords, hrelations]

/-- Words that a sum was refined to are skipped if all of them are grounded now, and are refined
to themselves otherwise, with the same relations in the same order. -/
theorem checked_again {relations : List WordRelation}
    (hsize : ∀ word ∈ positive ++ negative, word.length = n) (hn : n ≤ Modular.bitsMax)
    (h : checked positive negative = .ok (.refined words relations)) :
    checked (words.take positive.length) (words.drop positive.length) =
      .ok (if words.all isGrounded then .skipped else .refined words relations) := by
  cases hopen : openWords? positive negative with
  | none => simp [checked, hopen] at h
  | some places =>
    rw [checked_of_open hopen hsize] at h
    have hpropagate := Except.ok.inj h
    have hexact := exact_propagate hopen hsize hn
    rw [hpropagate] at hexact
    have hrefines := hexact.refines
    have hgrounded := hrefines.grounded hexact.exists_balances hsize
    have hskips := openWords?_eq_none_iff hopen
      (countP_open_le (by simpa using List.forall₂_take positive.length hgrounded))
      (countP_open_le (by simpa using List.forall₂_drop positive.length hgrounded))
      (by simpa using fun _ => hrefines.ne_never hexact.exists_balances)
    rw [List.take_append_drop] at hskips
    cases hopen' : openWords? (words.take positive.length) (words.drop positive.length) with
    | none => simp [checked, hopen', hskips.mp hopen']
    | some places' =>
      have hnot : ¬ words.all isGrounded = true := by
        simp [← hskips, hopen']
      rw [checked_of_open hopen' (by simpa using hrefines.size), if_neg hnot,
        propagate_again hsize hn hopen hpropagate hopen']

/-- Of two open words one is grounded by the first propagation and folded into the constant by
the second, and a single open word is skipped once it is grounded. -/
theorem checked_again_folded :
    let words : List (List Condition) := [[.n, .same], [.same, .x], [.u, .same]]
    checked [[.any, .same], [.same, .x]] [[.u, .same]] = .ok (.refined words []) ∧
      checked [[.n, .same], [.same, .x]] [[.u, .same]] = .ok (.refined words []) ∧
      checked [[.any, .same]] [[.u, .same]] = .ok (.refined [[.u, .same], [.u, .same]] []) ∧
      checked [[.u, .same]] [[.u, .same]] = .ok .skipped := by
  intro words
  have hopen : checked [[.any, .same], [.same, .x]] [[.u, .same]] = .ok (.refined words []) := by
    decide +kernel
  have hgrounded : checked [[.any, .same]] [[.u, .same]] =
      .ok (.refined [[.u, .same], [.u, .same]] []) := by
    decide +kernel
  refine ⟨hopen, ?_, hgrounded, ?_⟩
  · exact @checked_again words _ _ 2 [] (by decide) (by decide) hopen
  · exact @checked_again _ _ _ 2 [] (by decide) (by decide) hgrounded

end Sum

end ShaDiff
