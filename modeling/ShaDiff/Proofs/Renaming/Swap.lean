import Mathlib.Logic.Equiv.Basic
import ShaDiff.Proofs.Renaming.Entries

/-!
# The order of entries

Two entries that give atoms to different things may come in either order (`exists_swap`). Each
finds the atoms it takes free before the other as well as after it. What differs is which of two
words is named first, so the topologies are the same up to a renaming that swaps the two. So
entries that were all accepted are accepted in every order (`exists_of_perm`).
-/

namespace ShaDiff.Topology

variable {π : Equiv.Perm Nat} {t u t' t₁ t₂ : Topology} {name : String} {value : Int}
  {entries entries' : List (String × Int)}

-- ---------------------------------------------------------------------------
-- Words in either order
-- ---------------------------------------------------------------------------

theorem Bounded.swap_new (h : t.Bounded) {w x : Word} (hne : w ≠ x) :
    Renamed (.swap t.words.size (t.words.size + 1))
      { t with
        words := (t.words.push w).push x
        named := (t.named.insert w t.words.size).insert x (t.words.size + 1) }
      { t with
        words := (t.words.push x).push w
        named := (t.named.insert x t.words.size).insert w (t.words.size + 1) } := by
  have hlow {i : Nat} (hi : i < t.words.size) :
      Equiv.swap t.words.size (t.words.size + 1) i = i :=
    Equiv.swap_apply_of_ne_of_ne (by omega) (by omega)
  exact {
    zero := hlow (Nat.pos_of_ne_zero h.size_ne_zero)
    fixed := fun i hi => by
      simp only [Array.size_push] at hi
      exact Equiv.swap_apply_of_ne_of_ne (by omega) (by omega)
    encoding := rfl
    wordSize := rfl
    order := rfl
    size := by simp
    words := fun i => by
      simp only [Array.getElem?_push, Array.size_push]
      rcases Nat.lt_trichotomy i t.words.size with hi | rfl | hi
      · rw [hlow hi]
        simp [show i ≠ t.words.size by omega, show i ≠ t.words.size + 1 by omega]
      · simp
      · rcases Nat.eq_or_lt_of_le (Nat.succ_le_of_lt hi) with rfl | hi
        · simp
        · rw [Equiv.swap_apply_of_ne_of_ne (by omega) (by omega)]
          simp [show i ≠ t.words.size by omega, show i ≠ t.words.size + 1 by omega]
    steps := by simp [h.steps]
    operations := by simp [h.operations]
    sums := by simp [h.sums]
    atoms := fun b => by
      by_cases hb : b.word < t.words.size
      · rw [Bit.rename, hlow hb]
      · refine (h.atoms _ ?_).trans (h.atoms b (Nat.le_of_not_lt hb)).symm
        show t.words.size ≤ Equiv.swap _ _ b.word
        rw [Equiv.swap_apply_def]
        split
        · omega
        · split <;> omega
    tracked := fun a => by
      show t.tracked[a]? = t.tracked[a]?.map _
      cases ha : t.tracked[a]? with
      | none => rfl
      | some p => rw [Option.map_some, Place.rename, Bit.rename, hlow (h.tracked ha).word_lt]
    zeroAtoms := rfl
    named := fun y => by
      simp only [Std.TreeMap.getElem?_insert, Std.LawfulEqCmp.compare_eq_iff_eq]
      by_cases hwy : w = y
      · subst hwy
        simp [hne.symm]
      · by_cases hxy : x = y
        · simp [hwy, hxy]
        · rw [if_neg hwy, if_neg hxy, if_neg hxy, if_neg hwy]
          cases hy : t.named[y]? with
          | none => rfl
          | some i => rw [Option.map_some, hlow (h.named_lt hy)]
    readers := fun b => by simp [h.readers] }

theorem Bounded.exists_nameWord_swap (h : t.Bounded) (w x : Word) : ∃ π : Equiv.Perm Nat,
    ((t.nameWord w).2.nameWord x).2.Renamed π ((t.nameWord x).2.nameWord w).2 ∧
      ((t.nameWord x).2.nameWord w).1 = π (t.nameWord w).1 ∧
      (t.nameWord x).1 = π ((t.nameWord w).2.nameWord x).1 := by
  have hkept (y : Word) : ((t.nameWord y).2).nameWord y = t.nameWord y :=
    nameWord_of_some ((t.named_nameWord y y).trans (if_pos rfl))
  by_cases hne : w = x
  · subst hne
    rw [hkept w]
    exact ⟨.refl Nat, .refl _, rfl, rfl⟩
  · cases hw : t.named[w]? with
    | some i =>
      have hlater : ((t.nameWord x).2.nameWord w) = (i, (t.nameWord x).2) :=
        nameWord_of_some (by rw [named_nameWord, if_neg (Ne.symm hne), hw])
      rw [nameWord_of_some hw, hlater]
      exact ⟨.refl Nat, .refl _, rfl, rfl⟩
    | none =>
      cases hx : t.named[x]? with
      | some i =>
        have hlater : ((t.nameWord w).2.nameWord x) = (i, (t.nameWord w).2) :=
          nameWord_of_some (by rw [named_nameWord, if_neg hne, hx])
        rw [nameWord_of_some hx, hlater]
        exact ⟨.refl Nat, .refl _, rfl, rfl⟩
      | none =>
        have hwx : (t.nameWord w).2.named[x]? = none := by rw [named_nameWord, if_neg hne, hx]
        have hxw : (t.nameWord x).2.named[w]? = none := by
          rw [named_nameWord, if_neg (Ne.symm hne), hw]
        rw [nameWord_of_none hwx, nameWord_of_none hxw, nameWord_of_none hw, nameWord_of_none hx]
        refine ⟨.swap t.words.size (t.words.size + 1), ?_, ?_, ?_⟩
        · have hswap := h.swap_new hne
          simpa using hswap
        · simp
        · simp

theorem Bounded.eq_of_index (h : t.Bounded) {w x : Word}
    (hindex : (t.nameWord w).1 = ((t.nameWord w).2.nameWord x).1) : w = x := by
  by_cases hne : x = w
  · exact hne.symm
  · have hw : ((t.nameWord w).2.nameWord x).2.named[w]? = some (t.nameWord w).1 := by
      rw [named_nameWord, if_neg hne, named_nameWord, if_pos rfl]
    have hx : ((t.nameWord w).2.nameWord x).2.named[x]? = some ((t.nameWord w).2.nameWord x).1 := by
      rw [named_nameWord, if_pos rfl]
    have hbounded := (h.nameWord w).nameWord x
    have hword := (hbounded.word hw).2
    rw [hindex, (hbounded.word hx).2] at hword
    exact (Option.some.inj hword).symm

-- ---------------------------------------------------------------------------
-- Slots in either order
-- ---------------------------------------------------------------------------

theorem Renamed.fill (h : t.Renamed π u) (b : Bit) (filled : List (Nat × Atom)) :
    (t.fill b filled).Renamed π (u.fill (b.rename π) filled) := by
  induction filled generalizing t u with
  | nil => exact h
  | cons entry filled ih => exact ih (h.setSlot ⟨b, entry.1⟩ entry.2)

theorem setSlot_comm (t : Topology) {p q : Place} {a x : Atom} (hp : p ≠ q) (ha : a ≠ x) :
    ((t.setSlot p a).setSlot q x).Renamed (.refl Nat) ((t.setSlot q x).setSlot p a) := by
  have hslot (hbit : p.bit = q.bit) : p.slot ≠ q.slot := fun heq => hp (by
    cases p
    cases q
    exact Place.mk.injEq _ _ _ _ ▸ ⟨hbit, heq⟩)
  refine { Renamed.refl t with atoms := fun b => ?_, tracked := fun y => ?_ }
  · show (((t.setSlot q x).setSlot p a).atoms)[b]? = (((t.setSlot p a).setSlot q x).atoms)[b]?
    simp only [setSlot, Std.TreeMap.getElem?_insert, Std.TreeMap.getD_insert,
      Std.LawfulEqCmp.compare_eq_iff_eq]
    by_cases hbit : p.bit = q.bit
    · simp only [hbit, if_true, List.set_comm _ _ (hslot hbit).symm]
      split <;> rfl
    · simp only [hbit, Ne.symm hbit, if_false]
      by_cases hpb : p.bit = b
      · subst hpb
        simp [Ne.symm hbit]
      · simp [hpb]
  · show ((t.tracked.insert x q).insert a p)[y]? = ((t.tracked.insert a p).insert x q)[y]?.map id
    simp only [Std.TreeMap.getElem?_insert, Std.LawfulEqCmp.compare_eq_iff_eq, Option.map_id, id_eq]
    by_cases hay : a = y
    · subst hay
      simp [Ne.symm ha]
    · simp [hay]

theorem setSlot_fill_comm (t : Topology) {p : Place} {a : Atom} {b : Bit}
    {filled : List (Nat × Atom)} (hp : ∀ x ∈ filled, p ≠ ⟨b, x.1⟩) (ha : ∀ x ∈ filled, a ≠ x.2) :
    ((t.setSlot p a).fill b filled).Renamed (.refl Nat) ((t.fill b filled).setSlot p a) := by
  induction filled generalizing t with
  | nil => exact .refl _
  | cons entry filled ih =>
    obtain ⟨hpe, hp⟩ := List.forall_mem_cons.mp hp
    obtain ⟨hae, ha⟩ := List.forall_mem_cons.mp ha
    have hfirst := (t.setSlot_comm hpe hae).fill b filled
    exact hfirst.trans (ih _ hp ha)

theorem fill_comm (t : Topology) {b c : Bit} {filled filled' : List (Nat × Atom)}
    (hslots : b = c → ∀ x ∈ filled, ∀ y ∈ filled', x.1 ≠ y.1)
    (hatoms : ∀ x ∈ filled, ∀ y ∈ filled', x.2 ≠ y.2) :
    ((t.fill b filled).fill c filled').Renamed (.refl Nat) ((t.fill c filled').fill b filled) := by
  induction filled generalizing t with
  | nil => exact .refl _
  | cons entry filled ih =>
    obtain ⟨hentry, hatoms⟩ := List.forall_mem_cons.mp hatoms
    have hfirst := t.setSlot_fill_comm (p := ⟨b, entry.1⟩) (b := c) (fun y hy heq => by
      obtain ⟨hbit, hslot⟩ := Place.mk.inj heq
      exact hslots hbit entry List.mem_cons_self y hy hslot) hentry
    have hlater := ih (t.setSlot ⟨b, entry.1⟩ entry.2)
      (fun hbit x hx => hslots hbit x (List.mem_cons_of_mem _ hx)) hatoms
    exact hlater.trans (hfirst.fill b filled)

-- ---------------------------------------------------------------------------
-- Entries in either order
-- ---------------------------------------------------------------------------

section

variable {role role' : Role} {round round' : Int} {column column' : Nat}
  {slot slot' : Option Nat} {name' : String} {value' : Int}

theorem Bounded.swap_bits (h : t.Bounded)
    (hparse : Entry.parse name = .ok (.bit role round column slot))
    (hparse' : Entry.parse name' = .ok (.bit role' round' column' slot'))
    (hdisjoint : ∀ target ∈ targets t.encoding name, target ∉ targets t.encoding name')
    (hfirst : t.enter name value = .ok (.ok (), t₁))
    (hsecond : t₁.enter name' value' = .ok (.ok (), t₂)) :
    ∃ u₁ u₂ π, t.enter name' value' = .ok (.ok (), u₁) ∧
      u₁.enter name value = .ok (.ok (), u₂) ∧ t₂.Renamed π u₂ := by
  obtain ⟨horder, filled, hfilled, hfree, hpairwise, rfl⟩ := (enter_bit_iff hparse).mp hfirst
  obtain ⟨-, filled', hfilled', hfree', hpairwise', rfl⟩ := (enter_bit_iff hparse').mp hsecond
  obtain ⟨hencoding, hsize, -⟩ := t.fill_nameWord_frame ⟨role, round⟩
    ⟨(t.nameWord ⟨role, round⟩).1, column⟩ filled
  obtain ⟨hencoding', hsize', horder', -⟩ := t.fill_nameWord_frame ⟨role', round'⟩
    ⟨(t.nameWord ⟨role', round'⟩).1, column'⟩ filled'
  rw [slotsFilled_congr hencoding hsize] at hfilled'
  simp only [free_fill, free_nameWord] at hfree'
  have hatoms (x : Nat × Atom) (hx : x ∈ filled) (y : Nat × Atom) (hy : y ∈ filled') :
      x.2 ≠ y.2 := (hfree' y hy).2 x hx
  obtain ⟨π, hrenamed, hindex, hindex'⟩ := h.exists_nameWord_swap ⟨role, round⟩ ⟨role', round'⟩
  refine ⟨_, _, (Equiv.refl Nat).trans π,
    (enter_bit_iff hparse').mpr ⟨horder, filled', hfilled', fun y hy => (hfree' y hy).1,
      hpairwise', rfl⟩,
    (enter_bit_iff hparse).mpr ⟨horder'.trans horder, filled, ?_, fun x hx => ?_, hpairwise, rfl⟩,
    ?_⟩
  · rwa [slotsFilled_congr hencoding' hsize']
  · simp only [free_fill, free_nameWord]
    exact ⟨hfree x hx, fun y hy => (hatoms x hx y hy).symm⟩
  · rw [nameWord_fill, nameWord_fill]
    refine (fill_comm _ (fun hbit x hx y hy hslot => ?_) hatoms).trans ?_
    · obtain ⟨hword, hcolumn⟩ := Bit.mk.inj hbit
      have heq := h.eq_of_index hword
      refine hdisjoint (.slot ⟨role, round⟩ column x.1) ?_ ?_
      · rw [targets_of_slotsFilled hparse hfilled]
        exact List.mem_map.mpr ⟨x, hx, rfl⟩
      · rw [targets_of_slotsFilled hparse' hfilled', heq, hcolumn, hslot]
        exact List.mem_map.mpr ⟨y, hy, rfl⟩
    · rw [hindex, hindex']
      exact (hrenamed.fill _ filled').fill _ filled

theorem swap_zero_bit (hparse : Entry.parse name = .ok .zero)
    (hparse' : Entry.parse name' = .ok (.bit role' round' column' slot'))
    (hnone : t.zeroAtoms = none) (hfirst : t.enter name value = .ok (.ok (), t₁))
    (hsecond : t₁.enter name' value' = .ok (.ok (), t₂)) :
    ∃ u₁, t.enter name' value' = .ok (.ok (), u₁) ∧ u₁.enter name value = .ok (.ok (), t₂) := by
  obtain ⟨horder, atoms, hatoms, huntracked, rfl⟩ := (enter_zero_iff hparse).mp hfirst
  obtain ⟨-, filled', hfilled', hfree', hpairwise', rfl⟩ := (enter_bit_iff hparse').mp hsecond
  obtain ⟨hencoding', hsize', horder', -⟩ := t.fill_nameWord_frame ⟨role', round'⟩
    ⟨(t.nameWord ⟨role', round'⟩).1, column'⟩ filled'
  simp only [free_setZero hnone] at hfree'
  refine ⟨_, (enter_bit_iff hparse').mpr ⟨horder, filled', hfilled', fun y hy => (hfree' y hy).1,
      hpairwise', rfl⟩,
    (enter_zero_iff hparse).mpr ⟨horder'.trans horder, atoms, hencoding' ▸ hatoms, fun a ha => ?_, ?_⟩⟩
  · rw [contains_fill, tracked_nameWord]
    refine ⟨huntracked a ha, fun y hy heq => (hfree' y hy).2 (heq ▸ ha)⟩
  · rw [nameWord_setZero, fill_setZero]

theorem swap_bit_zero (hparse : Entry.parse name = .ok (.bit role round column slot))
    (hparse' : Entry.parse name' = .ok .zero) (hnone : t.zeroAtoms = none)
    (hfirst : t.enter name value = .ok (.ok (), t₁))
    (hsecond : t₁.enter name' value' = .ok (.ok (), t₂)) :
    ∃ u₁, t.enter name' value' = .ok (.ok (), u₁) ∧ u₁.enter name value = .ok (.ok (), t₂) := by
  obtain ⟨horder, filled, hfilled, hfree, hpairwise, rfl⟩ := (enter_bit_iff hparse).mp hfirst
  obtain ⟨-, atoms, hatoms, huntracked, rfl⟩ := (enter_zero_iff hparse').mp hsecond
  obtain ⟨hencoding, hsize, -⟩ := t.fill_nameWord_frame ⟨role, round⟩
    ⟨(t.nameWord ⟨role, round⟩).1, column⟩ filled
  simp only [contains_fill, tracked_nameWord] at huntracked
  refine ⟨_, (enter_zero_iff hparse').mpr ⟨horder, atoms, hencoding ▸ hatoms,
      fun a ha => (huntracked a ha).1, rfl⟩,
    (enter_bit_iff hparse).mpr ⟨horder, filled, hfilled, fun x hx => ?_, hpairwise, ?_⟩⟩
  · rw [free_setZero hnone]
    exact ⟨hfree x hx, fun hmem => (huntracked x.2 hmem).2 x hx rfl⟩
  · rw [nameWord_setZero t ⟨role, round⟩ (some atoms), fill_setZero _ _ _ (some atoms)]

/-- Two accepted entries that give atoms to different things are accepted in the other order. -/
theorem Bounded.exists_swap (h : t.Bounded)
    (hdisjoint : ∀ target ∈ targets t.encoding name, target ∉ targets t.encoding name')
    (hzero : Target.zero ∈ targets t.encoding name ++ targets t.encoding name' →
      t.zeroAtoms = none)
    (hfirst : t.enter name value = .ok (.ok (), t₁))
    (hsecond : t₁.enter name' value' = .ok (.ok (), t₂)) (horder : t₂.order = none) :
    ∃ u₁ u₂ π, t.enter name' value' = .ok (.ok (), u₁) ∧
      u₁.enter name value = .ok (.ok (), u₂) ∧ t₂.Renamed π u₂ := by
  have htargets {name : String} (hparse : Entry.parse name = .ok .zero) :
      targets t.encoding name = [.zero] := by
    rw [targets, hparse]
  rcases parse_of_enter hfirst (enter_ok hsecond).1 with hparse | ⟨role, round, column, slot, hparse⟩
  · rw [htargets hparse] at hdisjoint hzero
    rcases parse_of_enter hsecond horder with hparse' | ⟨role', round', column', slot', hparse'⟩
    · rw [htargets hparse'] at hdisjoint
      exact absurd List.mem_cons_self (hdisjoint .zero List.mem_cons_self)
    · obtain ⟨u₁, hu₁, hu₂⟩ := swap_zero_bit hparse hparse' (hzero (by simp)) hfirst hsecond
      exact ⟨u₁, t₂, .refl Nat, hu₁, hu₂, .refl _⟩
  · rcases parse_of_enter hsecond horder with hparse' | ⟨role', round', column', slot', hparse'⟩
    · rw [htargets hparse'] at hzero
      obtain ⟨u₁, hu₁, hu₂⟩ := swap_bit_zero hparse hparse' (hzero (by simp)) hfirst hsecond
      exact ⟨u₁, t₂, .refl Nat, hu₁, hu₂, .refl _⟩
    · exact h.swap_bits hparse hparse' hdisjoint hfirst hsecond

end

/-- Entries that give atoms to different things, and were accepted in one order, are accepted
in every other order. The topologies are the same up to a renaming of the words. -/
theorem Bounded.exists_of_perm (h : t.Bounded) (hperm : entries.Perm entries')
    (hnodup : (entries.flatMap fun entry => targets t.encoding entry.1).Nodup)
    (hzero : Target.zero ∈ entries.flatMap (fun entry => targets t.encoding entry.1) →
      t.zeroAtoms = none)
    (haccept : t.accept? entries = some t') (horder : t'.order = none) :
    ∃ u' π, t.accept? entries' = some u' ∧ t'.Renamed π u' := by
  induction hperm generalizing t t' with
  | nil => exact ⟨t', .refl Nat, haccept, .refl t'⟩
  | cons entry _ ih =>
    unfold accept? at haccept ⊢
    split at haccept
    · next t₁ henter =>
      have horder₁ := order_of_accept? haccept horder
      obtain ⟨hencoding, hkept⟩ := enter_frame henter horder₁
      rw [List.flatMap_cons, List.nodup_append] at hnodup
      obtain ⟨-, hnodup, hdisjoint⟩ := hnodup
      refine ih (h.enter henter horder₁) (hencoding ▸ hnodup) (fun hmem => ?_) haccept horder
      rw [hencoding] at hmem
      rw [hkept fun hfirst => hdisjoint _ hfirst _ hmem rfl]
      exact hzero (by rw [List.flatMap_cons]; exact List.mem_append_right _ hmem)
    · cases haccept
  | swap second first entries =>
    rw [List.flatMap_cons, List.flatMap_cons, ← List.append_assoc] at hnodup hzero
    obtain ⟨hdisjoint, -, -⟩ := List.nodup_append.mp hnodup
    obtain ⟨-, -, hdisjoint⟩ := List.nodup_append.mp hdisjoint
    unfold accept? at haccept
    split at haccept
    · next t₁ hfirst =>
      unfold accept? at haccept
      split at haccept
      · next t₂ hsecond =>
        have horder₂ := order_of_accept? haccept horder
        obtain ⟨u₁, u₂, π, hu₁, hu₂, hrenamed⟩ := h.exists_swap
          (fun target hmem hmem' => hdisjoint _ hmem _ hmem' rfl)
          (fun hmem => hzero (List.mem_append_left _ hmem)) hfirst hsecond horder₂
        obtain ⟨u', hu', hrenamed'⟩ := hrenamed.accept? haccept
        refine ⟨u', π, ?_, hrenamed'⟩
        simp only [accept?, hu₁, hu₂, hu']
      · cases haccept
    · cases haccept
  | trans hfirst _ ih ih' =>
    obtain ⟨u, π, hu, hrenamed⟩ := ih h hnodup hzero haccept horder
    have hperm := hfirst.flatMap_right fun entry : String × Int => targets t.encoding entry.1
    obtain ⟨v, σ, hv, hrenamed'⟩ := ih' h (hperm.nodup_iff.mp hnodup)
      (fun hmem => hzero (hperm.mem_iff.mpr hmem)) hu (hrenamed.order.trans horder)
    exact ⟨v, π.trans σ, hv, hrenamed.trans hrenamed'⟩

end ShaDiff.Topology
