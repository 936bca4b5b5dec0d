import ShaDiff.Proofs.Satisfaction
import ShaDiff.TwoBit.SignedSets

/-!
# Signed sets decide consistency

The valuations that agree with signed sets give each atom the difference of its
representative, turned by its sign. Relating two atoms keeps of these exactly the
valuations with the given sum (`relate_true`), and is refused exactly if none has
it (`relate_false`). Some valuation always agrees, the one of the signs, so
equations are consistent if and only if none contradicts those before it
(`contradictions_eq_nil_iff`).
-/

namespace ShaDiff.TwoBit.SignedSets

variable {s t : SignedSets} {v : Atom → Bool}

def Rooted (s : SignedSets) : Prop := ∀ a, s.find (s.find a).1 = ((s.find a).1, false)

def Agrees (s : SignedSets) (v : Atom → Bool) : Prop :=
  ∀ a, v a = (v (s.find a).1 ^^ (s.find a).2)

theorem find_empty (a : Atom) : empty.find a = (a, false) := by
  simp [empty, find]

theorem rooted_empty : empty.Rooted := fun a => by simp only [find_empty]

theorem agrees_empty (v : Atom → Bool) : empty.Agrees v := fun a => by
  simp [find_empty]

theorem agrees_sign (h : s.Rooted) : s.Agrees fun a => (s.find a).2 := fun a => by
  simp [h a]

theorem find_merge {root under : Atom} {sign : Bool} (hr : s.find root = (root, false)) (a : Atom) :
    (s.merge root under sign).find a =
      if (s.find a).1 = root then (under, (s.find a).2 ^^ sign) else s.find a := by
  simp only [merge, find, Std.TreeMap.getD_insert, Std.LawfulEqCmp.compare_eq_iff_eq]
  by_cases ha : root = a
  · subst ha
    have : s.places.getD root (root, false) = (root, false) := hr
    simp [this]
  · rw [if_neg ha]
    simp only [Std.TreeMap.getD_eq_getD_getElem?, Std.TreeMap.getElem?_map]
    cases s.places[a]? with
    | none => simp [Ne.symm ha]
    | some p =>
      simp only [Option.map_some, Option.getD_some]

section
variable {root under : Atom} {sign : Bool}

theorem Rooted.merge (h : s.Rooted) (hr : s.find root = (root, false))
    (hu : s.find under = (under, false)) (hne : root ≠ under) :
    (s.merge root under sign).Rooted := by
  intro a
  rw [find_merge hr a]
  split
  · rw [find_merge hr, hu, if_neg (Ne.symm hne)]
  · rename_i ha
    rw [find_merge hr, h a, if_neg ha]

theorem agrees_merge (hr : s.find root = (root, false)) :
    (s.merge root under sign).Agrees v ↔ s.Agrees v ∧ v root = (v under ^^ sign) := by
  constructor
  · intro h
    have hroot : v root = (v under ^^ sign) := by simpa [find_merge hr, hr] using h root
    refine ⟨fun a => ?_, hroot⟩
    have ha := h a
    rw [find_merge hr] at ha
    split at ha
    · rename_i he
      rw [ha, he, hroot, Bool.xor_assoc, Bool.xor_comm sign]
    · exact ha
  · rintro ⟨h, hroot⟩ a
    rw [find_merge hr]
    split
    · rename_i he
      rw [h a, he, hroot, Bool.xor_assoc, Bool.xor_comm sign]
    · exact h a

end

theorem Agrees.sum_eq (h : s.Agrees v) (he : (s.find a).1 = (s.find b).1) :
    (v a ^^ v b) = ((s.find a).2 ^^ (s.find b).2) := by
  rw [h a, h b, he]
  cases v (s.find b).1 <;> simp

theorem relate_true (h : s.Rooted) (hr : s.relate a b value = (true, t)) :
    t.Rooted ∧ ∀ v, t.Agrees v ↔ s.Agrees v ∧ (v a ^^ v b) = value := by
  simp only [relate] at hr
  split at hr
  · rename_i he
    simp only [Prod.mk.injEq, beq_iff_eq] at hr
    obtain ⟨hv, rfl⟩ := hr
    exact ⟨h, fun v => ⟨fun ha => ⟨ha, (ha.sum_eq he).trans hv⟩, And.left⟩⟩
  · rename_i he
    obtain rfl : s.merge _ _ _ = t := congrArg Prod.snd hr
    refine ⟨h.merge (h a) (h b) he, fun v => (agrees_merge (h a)).trans ?_⟩
    refine and_congr_right fun ha => ?_
    rw [ha a, ha b]
    cases v (s.find a).1 <;> cases v (s.find b).1 <;> cases (s.find a).2 <;>
      cases (s.find b).2 <;> cases value <;> decide

theorem relate_false (hr : s.relate a b value = (false, t)) :
    t = s ∧ ∀ v, s.Agrees v → (v a ^^ v b) ≠ value := by
  simp only [relate] at hr
  split at hr
  · rename_i he
    simp only [Prod.mk.injEq, beq_eq_false_iff_ne] at hr
    exact ⟨hr.2.symm, fun v ha => (ha.sum_eq he).symm ▸ hr.1⟩
  · simp at hr

theorem contradictions_eq_nil_iff (h : s.Rooted) :
    s.contradictions es = [] ↔ ∃ v, s.Agrees v ∧ Solves v es := by
  induction es generalizing s with
  | nil => exact ⟨fun _ => ⟨_, agrees_sign h, fun _ he => nomatch he⟩, fun _ => rfl⟩
  | cons e es ih =>
    unfold contradictions
    split
    · rename_i t hr
      obtain ⟨ht, hv⟩ := relate_true h hr
      rw [ih ht]
      refine exists_congr fun v => ?_
      rw [hv v, solves_cons, and_assoc]
      exact Iff.rfl
    · rename_i t hr
      obtain ⟨-, hv⟩ := relate_false hr
      simp only [List.cons_ne_nil, false_iff]
      rintro ⟨v, ha, hs⟩
      exact hv v ha (solves_cons.mp hs).1

/-- Equations are consistent if and only if none contradicts those before it. -/
theorem contradictions_empty : empty.contradictions es = [] ↔ Consistent es := by
  rw [contradictions_eq_nil_iff rooted_empty]
  exact exists_congr fun v => and_iff_right (agrees_empty v)

theorem firstContradiction?_empty :
    (empty.firstContradiction? es).isSome = true ↔ ¬ Consistent es := by
  rw [firstContradiction?_eq_head?, List.isSome_head?, ← contradictions_empty]

end ShaDiff.TwoBit.SignedSets
