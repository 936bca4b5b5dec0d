import ShaDiff.Proofs.Topology.Build

/-!
# Slots and the atoms tracked for them

Each atom in a slot is tracked for that slot and no other one. An atom stays tracked for its
place, and a slot that holds an atom is never emptied, but it may be given again. So the slot
of a tracked atom holds it, or another atom that is tracked for the same place (`Placed`). No
entry breaks that, whether it is accepted or not.
-/

namespace ShaDiff.Topology

variable {t t' : Topology} {a x : Atom} {b : Bit} {p place : Place} {i : Nat}

/-- Whether the slots hold what is tracked for them. -/
structure Placed (t : Topology) : Prop where
  tracks : t.Tracks
  held : ∀ {a : Atom} {p : Place}, t.tracked[a]? = some p →
    ∃ x, (t.slots p.bit)[p.slot]?.join = some x
  zero : ∀ {a : Atom}, t.isZeroAtom a = true → t.tracked.contains a = false
  length : ∀ {b : Bit} {slots : Slots}, t.atoms[b]? = some slots → slots.length = t.encoding.slots
  named : ∀ {w : Word} {i : Nat}, t.named[w]? = some i → i ≠ zeroWord
  words : t.words.size ≠ zeroWord

theorem placed_initial (e : Encoding) (n : Nat) :
    Placed { encoding := e, wordSize := n } where
  tracks := (sane_initial e n).tracks
  held h := by simp at h
  zero h := by simp [isZeroAtom] at h
  length h := by simp at h
  named h := by simp at h
  words := Nat.one_ne_zero

theorem Placed.of_eq (h : t.Placed) (hencoding : t'.encoding = t.encoding)
    (hatoms : t'.atoms = t.atoms) (htracked : t'.tracked = t.tracked)
    (hzero : ∀ a, t'.isZeroAtom a = true → t.tracked.contains a = false)
    (hnamed : ∀ {w : Word} {i : Nat}, t'.named[w]? = some i → i ≠ zeroWord)
    (hwords : t'.words.size ≠ zeroWord) : t'.Placed where
  tracks := h.tracks.of_eq hatoms htracked
  held ha := by
    rw [slots, hatoms]
    exact h.held (htracked ▸ ha)
  zero ha := htracked ▸ hzero _ ha
  length hb := hencoding ▸ h.length (hatoms ▸ hb)
  named := hnamed
  words := hwords

-- ---------------------------------------------------------------------------
-- Filling a slot
-- ---------------------------------------------------------------------------

theorem slots_setSlot (hb : b.isZero = false) : (t.setSlot p a).slots b =
    if p.bit = b then (t.atoms.getD b (List.replicate t.encoding.slots none)).set p.slot (some a)
    else t.slots b := by
  unfold slots
  rw [hb]
  simp only [setSlot, Std.TreeMap.getD_insert, Std.LawfulEqCmp.compare_eq_iff_eq,
    Bool.false_eq_true, if_false]
  split
  · next heq => rw [heq]
  · rfl

theorem isZero_of_slot (h : (t.slots b)[i]?.join = some x) : b.isZero = false := by
  cases hb : b.isZero with
  | false => rfl
  | true => simp [slots, hb] at h

theorem exists_slot_setSlot (h : (t.slots b)[i]?.join = some x) (p : Place) (a : Atom) :
    ∃ y, ((t.setSlot p a).slots b)[i]?.join = some y := by
  have hb := isZero_of_slot h
  rw [slots_setSlot hb]
  split
  · have hslot : (t.atoms.getD b (List.replicate t.encoding.slots none))[i]? = some (some x) := by
      rw [slots, hb] at h
      rw [Std.TreeMap.getD_eq_getD_getElem?] at h ⊢
      cases hs : t.atoms[b]? with
      | none => simp [hs] at h
      | some slots => exact Option.join_eq_some_iff.mp (by simpa [hs] using h)
    obtain ⟨hlt, -⟩ := List.getElem?_eq_some_iff.mp hslot
    rw [List.getElem?_set]
    split
    · exact ⟨a, by simp [‹p.slot = i›, hlt]⟩
    · exact ⟨x, by rw [hslot]; rfl⟩
  · exact ⟨x, h⟩

theorem Placed.length_getD (h : t.Placed) (b : Bit) :
    (t.atoms.getD b (List.replicate t.encoding.slots none)).length = t.encoding.slots := by
  rw [Std.TreeMap.getD_eq_getD_getElem?]
  cases hs : t.atoms[b]? with
  | none => exact List.length_replicate
  | some slots => exact h.length hs

theorem slot_setSlot (h : t.Placed) (hb : p.bit.isZero = false) (hp : p.slot < t.encoding.slots)
    (a : Atom) : ((t.setSlot p a).slots p.bit)[p.slot]?.join = some a := by
  rw [slots_setSlot hb, if_pos rfl, List.getElem?_set_self]
  · rfl
  · rwa [h.length_getD]

theorem Placed.setSlot (h : t.Placed) (hb : p.bit.isZero = false) (hp : p.slot < t.encoding.slots)
    (hzero : t.isZeroAtom a = false) (ha : t.tracked.contains a = false) :
    (t.setSlot p a).Placed where
  tracks := h.tracks.setSlot ha
  held {x place} hx := by
    have hx : (t.tracked.insert a p)[x]? = some place := hx
    rw [Std.TreeMap.getElem?_insert] at hx
    split at hx
    · obtain rfl := Option.some.inj hx
      exact ⟨a, slot_setSlot h hb hp a⟩
    · obtain ⟨y, hy⟩ := h.held hx
      exact exists_slot_setSlot hy p a
  zero {x} hx := by
    have hx : t.isZeroAtom x = true := hx
    have hne : a ≠ x := by
      rintro rfl
      exact Bool.false_ne_true (hzero.symm.trans hx)
    show (t.tracked.insert a p).contains x = false
    rw [Std.TreeMap.contains_insert, h.zero hx, Bool.or_false, beq_eq_false_iff_ne, ne_eq,
      Std.LawfulEqCmp.compare_eq_iff_eq]
    exact hne
  length {b slots} hs := by
    have hs : (t.atoms.insert p.bit
      ((t.atoms.getD p.bit (List.replicate t.encoding.slots none)).set p.slot (some a)))[b]? =
        some slots := hs
    rw [Std.TreeMap.getElem?_insert] at hs
    split at hs
    · obtain rfl := Option.some.inj hs
      rw [List.length_set]
      exact h.length_getD p.bit
    · exact h.length hs
  named := h.named
  words := h.words

theorem Placed.fillSlots (h : t.Placed) (hb : b.isZero = false) {filled : List (Nat × Atom)}
    (hfilled : ∀ x ∈ filled, x.1 < t.encoding.slots) : (t.fillSlots b filled).2.Placed := by
  induction filled generalizing t with
  | nil => exact h
  | cons entry filled ih =>
    obtain ⟨hslot, hlater⟩ := List.forall_mem_cons.mp hfilled
    unfold Topology.fillSlots
    split
    · exact h
    · next hfree =>
      simp only [Bool.or_eq_true, not_or, Bool.not_eq_true] at hfree
      exact ih (h.setSlot hb hslot hfree.1 hfree.2) hlater

-- ---------------------------------------------------------------------------
-- Words
-- ---------------------------------------------------------------------------

theorem Placed.nameWord (h : t.Placed) (w : Word) :
    (t.nameWord w).2.Placed ∧ (t.nameWord w).1 ≠ zeroWord := by
  unfold Topology.nameWord
  split
  · next hw => exact ⟨h, h.named hw⟩
  · refine ⟨h.of_eq rfl rfl rfl (fun _ ha => h.zero ha) (fun {v i} hv => ?_) ?_, h.words⟩
    · have hv : (t.named.insert w t.words.size)[v]? = some i := hv
      rw [Std.TreeMap.getElem?_insert] at hv
      split at hv
      · exact Option.some.inj hv ▸ h.words
      · exact h.named hv
    · show (t.words.push ⟨w.role, w.round⟩).size ≠ zeroWord
      rw [Array.size_push]
      exact Nat.succ_ne_zero _

theorem size_words_fillStep (t : Topology) (round : Int) (roles : List Role)
    (words : List (Role × Nat)) : t.words.size ≤ (t.fillStep round roles words).2.words.size := by
  induction roles generalizing t words with
  | nil => exact Nat.le_refl _
  | cons role roles ih =>
    unfold fillStep
    split
    · exact ih t _
    · split
      · exact Nat.le_refl _
      · exact Nat.le_trans (by simp) (ih _ _)

theorem size_words_addSteps (t : Topology) (order : Nat) (rounds : List Int) :
    t.words.size ≤ (t.addSteps order rounds).2.words.size := by
  induction rounds generalizing t with
  | nil => exact Nat.le_refl _
  | cons round rounds ih =>
    have hfill := t.size_words_fillStep round
      (Role.configurable.filter (·.applicable round order)) []
    unfold addSteps
    split
    · next heq =>
      rw [heq] at hfill
      exact hfill
    · next words t₁ heq =>
      rw [heq] at hfill
      exact Nat.le_trans hfill (ih { t₁ with steps := t₁.steps.push ⟨round, words⟩ })

theorem size_words_build {order : Nat} {result : Except Fault Unit}
    (h : t.build order = .ok (result, t')) : t.words.size ≤ t'.words.size := by
  have hsteps := t.size_words_addSteps order (rounds order)
  cases result with
  | ok =>
    obtain ⟨-, t₁, t₂, hadded, hrounds, rfl⟩ := build_ok h
    rw [hadded] at hsteps
    obtain ⟨-, -, hrest⟩ := addRounds_ok hrounds
    rw [hrest]
    exact hsteps
  | error fault =>
    obtain ⟨rfl, -⟩ | ⟨-, rfl⟩ := build_error h
    · exact Nat.le_refl _
    · exact hsteps

-- ---------------------------------------------------------------------------
-- Entries
-- ---------------------------------------------------------------------------

/-- An entry keeps what the slots hold in step with what is tracked, accepted or not. -/
theorem Placed.enter (h : t.Placed) {name : String} {value : Int} {result : Except Fault Unit}
    (henter : t.enter name value = .ok (result, t')) : t'.Placed := by
  rcases enter_cases henter with rfl | ⟨atoms, hfree, rfl⟩ | ⟨w, column, filled, hslots, hfill⟩ |
    ⟨order, -, hbuild⟩
  · exact h
  · refine h.of_eq rfl rfl rfl (fun a ha => hfree a ?_) h.named h.words
    simpa [isZeroAtom] using ha
  · obtain ⟨hnamed, hword⟩ := h.nameWord w
    have hlt : ∀ x ∈ filled, x.1 < (t.nameWord w).2.encoding.slots := by
      rwa [(t.nameWord_frame w).1]
    have hfilled := hnamed.fillSlots (b := ⟨(t.nameWord w).1, column⟩)
      (beq_eq_false_iff_ne.mpr hword) hlt
    rwa [hfill] at hfilled
  · have hsize := size_words_build hbuild
    obtain ⟨words, steps, operations, sums, readers, order', rfl⟩ := build_frame hbuild
    exact h.of_eq rfl rfl rfl (fun _ ha => h.zero ha) h.named
      (Nat.ne_of_gt (Nat.lt_of_lt_of_le (Nat.pos_of_ne_zero h.words) hsize))

theorem Placed.slot_lt (h : t.Placed) (ha : t.tracked[a]? = some p) :
    p.slot < t.encoding.slots := by
  obtain ⟨x, hx⟩ := h.held ha
  obtain ⟨hlt, -⟩ := List.getElem?_eq_some_iff.mp (Option.join_eq_some_iff.mp hx)
  have hb := isZero_of_slot hx
  rw [slots, hb, Std.TreeMap.getD_eq_getD_getElem?] at hlt
  cases hs : t.atoms[p.bit]? with
  | none => simp [hs] at hlt
  | some slots =>
    rw [hs] at hlt
    exact h.length hs ▸ hlt

end ShaDiff.Topology
