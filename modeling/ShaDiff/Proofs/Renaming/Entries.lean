import ShaDiff.Proofs.Renaming.Topology
import ShaDiff.Proofs.Topology.Filling

/-!
# The same entries under other indices

Topologies that are the same up to a renaming of the words are so after the same entries: an
entry that one of them takes is taken by the other (`Renamed.enter`). The renamings compose, so
topologies may be compared step by step (`Renamed.trans`).
-/

namespace ShaDiff.Topology

variable {π σ : Equiv.Perm Nat} {t u v t' : Topology} {name : String} {value : Int}
  {entries : List (String × Int)}

-- ---------------------------------------------------------------------------
-- Renamings
-- ---------------------------------------------------------------------------

theorem Renamed.refl (t : Topology) : t.Renamed (.refl Nat) t where
  zero := rfl
  fixed _ _ := rfl
  encoding := rfl
  wordSize := rfl
  order := rfl
  size := rfl
  words _ := rfl
  steps := by
    have hid : Step.rename (.refl Nat) = id := by
      funext s
      simp [Step.rename]
    rw [hid, Array.map_id]
  operations := by
    have hid : View.rename (.refl Nat) = id := by
      funext v
      cases v <;> rfl
    have hid : Operation.rename (.refl Nat) = id := by
      funext o
      simp [Operation.rename, hid]
    rw [hid, Array.map_id]
  sums := by
    have hid : SumEquation.rename (.refl Nat) = id := by
      funext s
      simp [SumEquation.rename]
    rw [hid, Array.map_id]
  atoms _ := rfl
  tracked a := by cases t.tracked[a]? <;> rfl
  zeroAtoms := rfl
  named w := by cases t.named[w]? <;> rfl
  readers _ := rfl

theorem Renamed.trans (h : t.Renamed π u) (h' : u.Renamed σ v) : t.Renamed (π.trans σ) v where
  zero := (congrArg σ h.zero).trans h'.zero
  fixed i hi := (congrArg σ (h.fixed i hi)).trans (h'.fixed i (h.size ▸ hi))
  encoding := h'.encoding.trans h.encoding
  wordSize := h'.wordSize.trans h.wordSize
  order := h'.order.trans h.order
  size := h'.size.trans h.size
  words i := (h'.words (π i)).trans (h.words i)
  steps := by
    rw [h'.steps, h.steps, Array.map_map]
    refine congrArg (Array.map · _) (funext fun s => ?_)
    simp [Step.rename]
  operations := by
    have hviews : View.rename σ ∘ View.rename π = View.rename (π.trans σ) := by
      funext v
      cases v <;> rfl
    rw [h'.operations, h.operations, Array.map_map]
    refine congrArg (Array.map · _) (funext fun o => ?_)
    simp [Operation.rename, hviews]
  sums := by
    rw [h'.sums, h.sums, Array.map_map]
    refine congrArg (Array.map · _) (funext fun s => ?_)
    simp [SumEquation.rename]
  atoms b := (h'.atoms (b.rename π)).trans (h.atoms b)
  tracked a := by
    rw [h'.tracked, h.tracked, Option.map_map]
    rfl
  zeroAtoms := h'.zeroAtoms.trans h.zeroAtoms
  named w := by
    rw [h'.named, h.named, Option.map_map]
    rfl
  readers b := (h'.readers (b.rename π)).trans (h.readers b)

-- ---------------------------------------------------------------------------
-- The same entry under other indices
-- ---------------------------------------------------------------------------

theorem Renamed.isBuilt (h : t.Renamed π u) : u.isBuilt = t.isBuilt :=
  congrArg Option.isSome h.order

theorem Renamed.contains_tracked (h : t.Renamed π u) (a : Atom) :
    u.tracked.contains a = t.tracked.contains a := by
  rw [Std.TreeMap.contains_eq_isSome_getElem?, h.tracked, Option.isSome_map,
    ← Std.TreeMap.contains_eq_isSome_getElem?]

theorem Renamed.isZeroAtom (h : t.Renamed π u) (a : Atom) : u.isZeroAtom a = t.isZeroAtom a := by
  rw [Topology.isZeroAtom, Topology.isZeroAtom, h.zeroAtoms]

theorem Renamed.nameWord (h : t.Renamed π u) (w : Word) :
    (u.nameWord w).1 = π (t.nameWord w).1 ∧ (t.nameWord w).2.Renamed π (u.nameWord w).2 := by
  have hindex : π t.words.size = u.words.size := (h.fixed _ (Nat.le_refl _)).trans h.size.symm
  unfold Topology.nameWord
  rw [h.named]
  cases t.named[w]? with
  | some i => exact ⟨rfl, h⟩
  | none =>
    refine ⟨hindex.symm, { h.push w with named := fun x => ?_ }⟩
    show (u.named.insert w u.words.size)[x]? = (t.named.insert w t.words.size)[x]?.map π
    simp only [Std.TreeMap.getElem?_insert, h.named, ← hindex]
    split <;> rfl

theorem Renamed.setSlot (h : t.Renamed π u) (p : Place) (a : Atom) :
    (t.setSlot p a).Renamed π (u.setSlot (p.rename π) a) where
  zero := h.zero
  fixed := h.fixed
  encoding := h.encoding
  wordSize := h.wordSize
  order := h.order
  size := h.size
  words := h.words
  steps := h.steps
  operations := h.operations
  sums := h.sums
  atoms b := by
    simp only [Topology.setSlot, Place.rename, Std.TreeMap.getElem?_insert,
      Std.LawfulEqCmp.compare_eq_iff_eq, Bit.rename_inj, Std.TreeMap.getD_eq_getD_getElem?,
      h.atoms, h.encoding]
  tracked x := by
    simp only [Topology.setSlot, Std.TreeMap.getElem?_insert, h.tracked]
    split <;> rfl
  zeroAtoms := h.zeroAtoms
  named := h.named
  readers := h.readers

theorem Renamed.fillSlots (h : t.Renamed π u) (b : Bit) (filled : List (Nat × Atom)) :
    (u.fillSlots (b.rename π) filled).1 = (t.fillSlots b filled).1 ∧
      (t.fillSlots b filled).2.Renamed π (u.fillSlots (b.rename π) filled).2 := by
  induction filled generalizing t u with
  | nil => exact ⟨rfl, h⟩
  | cons entry filled ih =>
    unfold Topology.fillSlots
    rw [h.isZeroAtom, h.contains_tracked]
    split
    · exact ⟨rfl, h⟩
    · exact ih (h.setSlot ⟨b, entry.1⟩ entry.2)

theorem Renamed.slotsFilled (h : t.Renamed π u) : u.slotsFilled = t.slotsFilled := by
  unfold Topology.slotsFilled
  rw [h.encoding, h.wordSize]

theorem Renamed.enterBit (h : t.Renamed π u) (name : String) (value : Int) (role : Role)
    (round : Int) (column : Nat) (slot : Option Nat) :
    (u.enterBit name role round column slot value).1 =
        (t.enterBit name role round column slot value).1 ∧
      (t.enterBit name role round column slot value).2.Renamed π
        (u.enterBit name role round column slot value).2 := by
  unfold Topology.enterBit
  rw [h.slotsFilled]
  split
  · exact ⟨rfl, h⟩
  · next filled _ =>
    obtain ⟨hindex, hnamed⟩ := h.nameWord ⟨role, round⟩
    dsimp only
    rw [hindex]
    exact hnamed.fillSlots ⟨(t.nameWord ⟨role, round⟩).1, column⟩ filled

theorem Renamed.enterZero (h : t.Renamed π u) (ht : t.enterZero value = .ok t') :
    ∃ u', u.enterZero value = .ok u' ∧ t'.Renamed π u' := by
  obtain ⟨atoms, hatoms, hfree, rfl⟩ := enterZero_eq_ok_iff.mp ht
  refine ⟨_, enterZero_eq_ok_iff.mpr ⟨atoms, h.encoding ▸ hatoms, fun a ha => ?_, rfl⟩,
    { h with zeroAtoms := rfl }⟩
  rw [h.contains_tracked]
  exact hfree a ha

theorem Renamed.enter (h : t.Renamed π u) (ht : t.enter name value = .ok (.ok (), t')) :
    ∃ u', u.enter name value = .ok (.ok (), u') ∧ t'.Renamed π u' := by
  unfold Topology.enter at ht ⊢
  rw [h.isBuilt]
  split at ht
  · cases ht
  · next hbuilt =>
    rw [if_neg hbuilt]
    cases hparse : Entry.parse name with
    | error fault => simp [hparse] at ht
    | ok entry =>
      simp only [hparse] at ht ⊢
      cases entry with
      | order =>
        dsimp only at ht ⊢
        split at ht
        · next hrange =>
          rw [if_pos hrange]
          exact h.build ht
        · cases ht
      | zero =>
        cases hzero : t.enterZero value with
        | error fault => simp [hzero] at ht
        | ok t₁ =>
          obtain ⟨u₁, hu, hrenamed⟩ := h.enterZero hzero
          simp only [hzero, Except.ok.injEq, Prod.mk.injEq, true_and] at ht
          simp only [hu]
          exact ⟨_, rfl, ht ▸ hrenamed⟩
      | bit role round column slot =>
        obtain ⟨hresult, hrenamed⟩ := h.enterBit name value role round column slot
        have ht := Except.ok.inj ht
        rw [ht] at hresult hrenamed
        exact ⟨(u.enterBit name role round column slot value).2,
          congrArg Except.ok (Prod.ext hresult rfl), hrenamed⟩

theorem Renamed.accept? (h : t.Renamed π u) (ht : t.accept? entries = some t') :
    ∃ u', u.accept? entries = some u' ∧ t'.Renamed π u' := by
  induction entries generalizing t u with
  | nil => exact ⟨u, rfl, Option.some.inj ht ▸ h⟩
  | cons entry entries ih =>
    unfold Topology.accept? at ht ⊢
    split at ht
    · next t₁ henter =>
      obtain ⟨u₁, hu, hrenamed⟩ := h.enter henter
      simp only [hu]
      exact ih hrenamed ht
    · cases ht

end ShaDiff.Topology
