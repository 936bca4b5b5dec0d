import ShaDiff.Proofs.Topology.Slots

/-!
# What accepted entries fill

An accepted entry gives atoms to the zero word or fills slots of a bit, and the atoms are free
before (`enter_zero_iff`, `enter_bit_iff`). The word of the bit is named first, and the slots are
filled one after the other (`fill`). What an entry gives atoms to is read off its name
(`targets`). Before the order only bits of words that were named have atoms (`Bounded`).
-/

namespace ShaDiff.Topology

variable {t t' : Topology} {name : String} {value : Int} {entries : List (String × Int)}

-- ---------------------------------------------------------------------------
-- Words that are named
-- ---------------------------------------------------------------------------

theorem nameWord_of_some {w : Word} {i : Nat} (h : t.named[w]? = some i) :
    t.nameWord w = (i, t) := by
  unfold nameWord
  rw [h]

theorem nameWord_of_none {w : Word} (h : t.named[w]? = none) : t.nameWord w =
    (t.words.size, { t with
      words := t.words.push w, named := t.named.insert w t.words.size }) := by
  unfold nameWord
  rw [h]

theorem named_nameWord (t : Topology) (w x : Word) :
    (t.nameWord w).2.named[x]? = if w = x then some (t.nameWord w).1 else t.named[x]? := by
  cases hw : t.named[w]? with
  | some i =>
    rw [nameWord_of_some hw]
    split
    · next heq => exact heq ▸ hw
    · rfl
  | none =>
    rw [nameWord_of_none hw]
    simp only [Std.TreeMap.getElem?_insert, Std.LawfulEqCmp.compare_eq_iff_eq]

-- ---------------------------------------------------------------------------
-- Slots that are filled
-- ---------------------------------------------------------------------------

def Free (t : Topology) (a : Atom) : Prop := t.isZeroAtom a = false ∧ t.tracked.contains a = false

/-- Fills slots of a bit whether or not their atoms are taken. -/
def fill (t : Topology) (b : Bit) (filled : List (Nat × Atom)) : Topology :=
  filled.foldl (fun t x => t.setSlot ⟨b, x.1⟩ x.2) t

theorem contains_setSlot {p : Place} {a x : Atom} :
    (t.setSlot p a).tracked.contains x = false ↔ t.tracked.contains x = false ∧ a ≠ x := by
  have hcontains : (t.setSlot p a).tracked.contains x =
      (compare a x == .eq || t.tracked.contains x) := Std.TreeMap.contains_insert
  rw [hcontains, Bool.or_eq_false_iff, beq_eq_false_iff_ne, ne_eq,
    Std.LawfulEqCmp.compare_eq_iff_eq, and_comm]

theorem contains_fill {b : Bit} {filled : List (Nat × Atom)} {a : Atom} :
    (t.fill b filled).tracked.contains a = false ↔
      t.tracked.contains a = false ∧ ∀ y ∈ filled, y.2 ≠ a := by
  induction filled generalizing t with
  | nil => simp [fill]
  | cons entry filled ih =>
    show ((t.setSlot ⟨b, entry.1⟩ entry.2).fill b filled).tracked.contains a = false ↔ _
    rw [ih, contains_setSlot, List.forall_mem_cons, and_assoc]

theorem free_setSlot {p : Place} {a x : Atom} : (t.setSlot p a).Free x ↔ t.Free x ∧ a ≠ x := by
  rw [Free, contains_setSlot, Free, and_assoc]
  rfl

theorem free_fill {b : Bit} {filled : List (Nat × Atom)} {x : Atom} :
    (t.fill b filled).Free x ↔ t.Free x ∧ ∀ y ∈ filled, y.2 ≠ x := by
  induction filled generalizing t with
  | nil => simp [fill]
  | cons entry filled ih =>
    show ((t.setSlot ⟨b, entry.1⟩ entry.2).fill b filled).Free x ↔ _
    rw [ih, free_setSlot, List.forall_mem_cons, and_assoc]

theorem fillSlots_eq_ok_iff {b : Bit} {filled : List (Nat × Atom)} :
    t.fillSlots b filled = (.ok (), t') ↔
      (∀ x ∈ filled, t.Free x.2) ∧ filled.Pairwise (fun x y => x.2 ≠ y.2) ∧
        t' = t.fill b filled := by
  induction filled generalizing t with
  | nil => simp [fillSlots, fill, eq_comm]
  | cons entry filled ih =>
    have htaken : (t.isZeroAtom entry.2 || t.tracked.contains entry.2) = true ↔ ¬ t.Free entry.2 := by
      rw [Free, ← Bool.or_eq_false_iff, Bool.not_eq_false]
    unfold fillSlots
    rw [List.forall_mem_cons, List.pairwise_cons]
    split
    · next h =>
      refine ⟨fun heq => ?_, fun ⟨⟨hfree, _⟩, _⟩ => absurd hfree (htaken.mp h)⟩
      cases heq
    · next h =>
      have hfree : t.Free entry.2 := Classical.not_not.mp (mt htaken.mpr h)
      rw [ih]
      simp only [free_setSlot]
      refine ⟨fun ⟨hlater, hpairwise, heq⟩ => ⟨⟨hfree, fun x hx => (hlater x hx).1⟩,
        ⟨fun x hx => (hlater x hx).2, hpairwise⟩, heq⟩,
        fun ⟨⟨_, hlater⟩, ⟨hne, hpairwise⟩, heq⟩ =>
          ⟨fun x hx => ⟨hlater x hx, hne x hx⟩, hpairwise, heq⟩⟩

theorem free_nameWord {w : Word} {a : Atom} : (t.nameWord w).2.Free a ↔ t.Free a := by
  unfold nameWord
  split <;> exact Iff.rfl

theorem tracked_nameWord {w : Word} {a : Atom} :
    (t.nameWord w).2.tracked.contains a = t.tracked.contains a := by
  rw [(t.nameWord_frame w).2.2.2]

theorem nameWord_setSlot (t : Topology) (p : Place) (a : Atom) (w : Word) :
    (t.setSlot p a).nameWord w = ((t.nameWord w).1, (t.nameWord w).2.setSlot p a) := by
  unfold nameWord
  have hnamed : (t.setSlot p a).named = t.named := rfl
  rw [hnamed]
  split <;> rfl

theorem nameWord_fill (t : Topology) (b : Bit) (filled : List (Nat × Atom)) (w : Word) :
    (t.fill b filled).nameWord w = ((t.nameWord w).1, (t.nameWord w).2.fill b filled) := by
  induction filled generalizing t with
  | nil => rfl
  | cons entry filled ih =>
    show ((t.setSlot _ _).fill b filled).nameWord w = _
    rw [ih, nameWord_setSlot]
    rfl

theorem fill_frame (t : Topology) (b : Bit) (filled : List (Nat × Atom)) :
    (t.fill b filled).encoding = t.encoding ∧ (t.fill b filled).wordSize = t.wordSize ∧
      (t.fill b filled).order = t.order ∧ (t.fill b filled).zeroAtoms = t.zeroAtoms := by
  induction filled generalizing t with
  | nil => exact ⟨rfl, rfl, rfl, rfl⟩
  | cons entry filled ih => exact ih (t.setSlot ⟨b, entry.1⟩ entry.2)

theorem fill_nameWord_frame (t : Topology) (w : Word) (b : Bit) (filled : List (Nat × Atom)) :
    ((t.nameWord w).2.fill b filled).encoding = t.encoding ∧
      ((t.nameWord w).2.fill b filled).wordSize = t.wordSize ∧
      ((t.nameWord w).2.fill b filled).order = t.order ∧
      ((t.nameWord w).2.fill b filled).zeroAtoms = t.zeroAtoms := by
  obtain ⟨hencoding, hsize, horder, hzero⟩ := (t.nameWord w).2.fill_frame b filled
  rw [hencoding, hsize, horder, hzero]
  unfold nameWord
  split <;> exact ⟨rfl, rfl, rfl, rfl⟩

theorem slotsFilled_congr (hencoding : t'.encoding = t.encoding) (hsize : t'.wordSize = t.wordSize) :
    t'.slotsFilled = t.slotsFilled := by
  unfold slotsFilled
  rw [hencoding, hsize]

theorem nameWord_setZero (t : Topology) (w : Word) (zeroAtoms : Option (List Atom)) :
    { t with zeroAtoms }.nameWord w =
      ((t.nameWord w).1, { (t.nameWord w).2 with zeroAtoms }) := by
  unfold nameWord
  dsimp only
  split <;> rfl

theorem fill_setZero (t : Topology) (b : Bit) (filled : List (Nat × Atom))
    (zeroAtoms : Option (List Atom)) :
    { t with zeroAtoms }.fill b filled = { t.fill b filled with zeroAtoms } := by
  induction filled generalizing t with
  | nil => rfl
  | cons entry filled ih => exact ih (t.setSlot ⟨b, entry.1⟩ entry.2)

theorem free_setZero {atoms : List Atom} {a : Atom} (hnone : t.zeroAtoms = none) :
    Free { t with zeroAtoms := some atoms } a ↔ t.Free a ∧ a ∉ atoms := by
  have hzero : Topology.isZeroAtom { t with zeroAtoms := some atoms } a = atoms.contains a := rfl
  rw [Free, Free, hzero]
  simp [isZeroAtom, hnone, and_comm]

-- ---------------------------------------------------------------------------
-- Accepted entries
-- ---------------------------------------------------------------------------

/-- An entry of the zero word is taken if no bit has one of its atoms. -/
theorem enterZero_eq_ok_iff : t.enterZero value = .ok t' ↔
    ∃ atoms, consecutive value t.encoding.slots = .ok atoms ∧
      (∀ a ∈ atoms, t.tracked.contains a = false) ∧
      t' = { t with zeroAtoms := some atoms } := by
  unfold Topology.enterZero
  cases consecutive value t.encoding.slots with
  | error fault => simp [bind, Except.bind]
  | ok atoms =>
    simp only [bind, Except.bind, Except.ok.injEq, exists_eq_left']
    split
    · next a hfind =>
      have htaken := List.find?_some hfind
      have hmem := List.mem_of_find?_eq_some hfind
      refine ⟨fun h => (nomatch h), fun ⟨hfree, _⟩ => ?_⟩
      exact absurd htaken (Bool.eq_false_iff.mp (hfree a hmem))
    · next hfind =>
      have hfree := List.find?_eq_none.mp hfind
      simp only [Except.ok.injEq]
      exact ⟨fun h => ⟨fun a ha => Bool.eq_false_iff.mpr (hfree a ha), h.symm⟩,
        fun ⟨_, h⟩ => h.symm⟩

theorem enter_zero_iff (hparse : Entry.parse name = .ok .zero) :
    t.enter name value = .ok (.ok (), t') ↔ t.order = none ∧
      ∃ atoms, consecutive value t.encoding.slots = .ok atoms ∧
        (∀ a ∈ atoms, t.tracked.contains a = false) ∧
        t' = { t with zeroAtoms := some atoms } := by
  unfold enter
  rw [hparse, isBuilt, ← enterZero_eq_ok_iff]
  cases t.order with
  | some order => simp
  | none => cases t.enterZero value <;> simp

section

variable {role : Role} {round : Int} {column : Nat} {slot : Option Nat}

theorem enter_bit_iff (hparse : Entry.parse name = .ok (.bit role round column slot)) :
    t.enter name value = .ok (.ok (), t') ↔ t.order = none ∧
      ∃ filled, t.slotsFilled name role round column slot value = .ok filled ∧
        (∀ x ∈ filled, t.Free x.2) ∧ filled.Pairwise (fun x y => x.2 ≠ y.2) ∧
        t' = (t.nameWord ⟨role, round⟩).2.fill ⟨(t.nameWord ⟨role, round⟩).1, column⟩ filled := by
  unfold enter enterBit
  rw [hparse, isBuilt]
  cases t.order with
  | some order => simp
  | none =>
    cases hfilled : t.slotsFilled name role round column slot value with
    | error fault => simp [hfilled]
    | ok filled => simp [hfilled, fillSlots_eq_ok_iff, free_nameWord]

end

/-- An accepted entry that is not the order gives atoms to the zero word or to a bit. -/
theorem parse_of_enter (h : t.enter name value = .ok (.ok (), t')) (horder : t'.order = none) :
    Entry.parse name = .ok .zero ∨
      ∃ role round column slot, Entry.parse name = .ok (.bit role round column slot) := by
  cases hparse : Entry.parse name with
  | error fault =>
    unfold enter at h
    rw [hparse] at h
    split at h <;> cases h
  | ok entry =>
    cases entry with
    | zero => exact .inl rfl
    | bit role round column slot => exact .inr ⟨role, round, column, slot, rfl⟩
    | order =>
      unfold enter at h
      rw [hparse] at h
      split at h
      · cases h
      · dsimp only at h
        split at h
        · obtain ⟨-, t₁, t₂, -, -, rfl⟩ := build_ok h
          cases horder
        · cases h

theorem build_of_enter (h : t.enter name value = .ok (.ok (), t')) (hfixed : t'.order ≠ none) :
    ∃ order, t.build order = .ok (.ok (), t') := by
  obtain ⟨hnone, ⟨atoms, rfl⟩ | ⟨w, column, filled, hfill⟩ | ⟨order, -, -, hbuild⟩⟩ := enter_ok h
  · exact absurd hnone hfixed
  · have hnamed : (t.nameWord w).2.order = none := by
      unfold nameWord
      split <;> exact hnone
    have hfilled := fillSlots_induction (P := fun t => t.order = none)
      (b := ⟨(t.nameWord w).1, column⟩) (fun h _ => h) hnamed filled
    rw [hfill] at hfilled
    exact absurd hfilled hfixed
  · exact ⟨order, hbuild⟩

theorem accept?_append (t : Topology) (entries more : List (String × Int)) :
    t.accept? (entries ++ more) = (t.accept? entries).bind (·.accept? more) := by
  induction entries generalizing t with
  | nil => rfl
  | cons entry entries ih =>
    simp only [List.cons_append, accept?]
    split
    · exact ih _
    · rfl

theorem order_of_accept?_cons {entry : String × Int}
    (h : t.accept? (entry :: entries) = some t') : t.order = none := by
  unfold accept? at h
  split at h
  · next henter => exact (enter_ok henter).1
  · cases h

theorem isBuilt_of_accept?_order {order : Int} (h : t.accept? [("order", order)] = some t') :
    t'.isBuilt = true := by
  have hparse : Entry.parse "order" = .ok .order := if_pos rfl
  unfold accept? at h
  split at h
  · next henter =>
    obtain rfl := Option.some.inj h
    unfold enter at henter
    rw [hparse] at henter
    split at henter
    · cases henter
    · dsimp only at henter
      split at henter
      · obtain ⟨-, _, _, -, -, rfl⟩ := build_ok henter
        rfl
      · cases henter
  · cases h

theorem order_of_accept? (h : t.accept? entries = some t') (horder : t'.order = none) :
    t.order = none := by
  cases entries with
  | nil => exact Option.some.inj h ▸ horder
  | cons => exact order_of_accept?_cons h

-- ---------------------------------------------------------------------------
-- What an entry gives atoms to
-- ---------------------------------------------------------------------------

inductive Target
  | zero
  | slot (w : Word) (column slot : Nat)
deriving DecidableEq

/-- What an entry gives atoms to, read off its name. -/
def targets (e : Encoding) (name : String) : List Target :=
  match Entry.parse name with
  | .ok .zero => [.zero]
  | .ok (.bit role round column (some slot)) => [.slot ⟨role, round⟩ column slot]
  | .ok (.bit role round column none) =>
    (List.range e.slots).map fun slot => .slot ⟨role, round⟩ column slot
  | _ => []

theorem targets_of_slotsFilled {role : Role} {round : Int} {column : Nat} {slot : Option Nat}
    (hparse : Entry.parse name = .ok (.bit role round column slot))
    {filled : List (Nat × Atom)}
    (h : t.slotsFilled name role round column slot value = .ok filled) :
    targets t.encoding name = filled.map fun x => .slot ⟨role, round⟩ column x.1 := by
  simp only [slotsFilled, bind, Except.bind, pure, Except.pure, throw, throwThe,
    MonadExceptOf.throw] at h
  unfold targets
  rw [hparse]
  split at h
  · cases h
  split at h
  · cases h
  cases slot with
  | some slot =>
    dsimp only at h ⊢
    split at h
    · cases h
    · split at h
      · cases h
      · next atoms hatoms =>
        obtain rfl := Except.ok.inj h
        rw [(consecutive_ok hatoms).2]
        simp
  | none =>
    dsimp only at h ⊢
    split at h
    · cases h
    · next atoms hatoms =>
      obtain rfl := Except.ok.inj h
      rw [(consecutive_ok hatoms).2]
      refine List.ext_getElem (by simp) fun i hi hi' => ?_
      simp

theorem enter_frame (henter : t.enter name value = .ok (.ok (), t')) (horder : t'.order = none) :
    t'.encoding = t.encoding ∧
      (Target.zero ∉ targets t.encoding name → t'.zeroAtoms = t.zeroAtoms) := by
  rcases parse_of_enter henter horder with hparse | ⟨role, round, column, slot, hparse⟩
  · obtain ⟨-, atoms, -, -, rfl⟩ := (enter_zero_iff hparse).mp henter
    refine ⟨rfl, fun hzero => absurd ?_ hzero⟩
    rw [targets, hparse]
    exact List.mem_cons_self
  · obtain ⟨-, filled, -, -, -, rfl⟩ := (enter_bit_iff hparse).mp henter
    obtain ⟨hencoding, -, -, hzero⟩ := t.fill_nameWord_frame ⟨role, round⟩
      ⟨(t.nameWord ⟨role, round⟩).1, column⟩ filled
    exact ⟨hencoding, fun _ => hzero⟩

-- ---------------------------------------------------------------------------
-- Words and columns that have atoms
-- ---------------------------------------------------------------------------

structure HasBit (t : Topology) (b : Bit) : Prop where
  word_lt : b.word < t.words.size
  column_lt : b.column < t.wordSize

theorem HasBit.mono {b : Bit} (h : t.HasBit b) (hwords : t.words.size ≤ t'.words.size)
    (hsize : t'.wordSize = t.wordSize) : t'.HasBit b :=
  ⟨Nat.lt_of_lt_of_le h.word_lt hwords, hsize ▸ h.column_lt⟩

/-- Whether an atom that a solver has stands for a bit other than those of the zero word. -/
structure Stands (t : Topology) (a : Atom) (b : Bit) : Prop extends t.HasBit b where
  le_atomMax : a ≤ atomMax
  isZero : b.isZero = false

theorem Stands.mono {a : Atom} {b : Bit} (h : t.Stands a b)
    (hwords : t.words.size ≤ t'.words.size) (hsize : t'.wordSize = t.wordSize) : t'.Stands a b :=
  ⟨h.toHasBit.mono hwords hsize, h.le_atomMax, h.isZero⟩

/-- Whether only bits of words that were named have atoms. -/
structure Bounded (t : Topology) : Prop extends t.Open where
  atoms : ∀ b : Bit, t.words.size ≤ b.word → t.atoms[b]? = none
  tracked : ∀ {a : Atom} {p : Place}, t.tracked[a]? = some p → t.Stands a p.bit

theorem bounded_initial (e : Encoding) (n : Nat) : Bounded { encoding := e, wordSize := n } :=
  { open_initial e n with
    atoms := fun _ _ => Std.TreeMap.getElem?_emptyc
    tracked := fun h => by simp at h }

theorem Bounded.named_lt (h : t.Bounded) {w : Word} {i : Nat} (hw : t.named[w]? = some i) :
    i < t.words.size :=
  (Array.getElem?_eq_some_iff.mp (h.word hw).2).1

theorem size_le_nameWord (t : Topology) (w : Word) :
    t.words.size ≤ (t.nameWord w).2.words.size := by
  cases hw : t.named[w]? with
  | some i => simp [nameWord_of_some hw]
  | none => simp [nameWord_of_none hw]

theorem Bounded.nameWord (h : t.Bounded) (w : Word) : (t.nameWord w).2.Bounded := by
  obtain ⟨-, hcolumns, hatoms, htracked⟩ := t.nameWord_frame w
  have hsize := t.size_le_nameWord w
  refine { h.toOpen.nameWord w with atoms := fun b hb => ?_, tracked := fun ha => ?_ }
  · rw [hatoms]
    exact h.atoms b (Nat.le_trans hsize hb)
  · rw [htracked] at ha
    exact (h.tracked ha).mono hsize hcolumns

theorem Bounded.stands_nameWord (h : t.Bounded) (w : Word) {column : Nat} {a : Atom}
    (hcolumn : column < t.wordSize) (hmax : a ≤ atomMax) :
    (t.nameWord w).2.Stands a ⟨(t.nameWord w).1, column⟩ := by
  have hnamed : (t.nameWord w).2.named[w]? = some (t.nameWord w).1 :=
    (t.named_nameWord w w).trans (if_pos rfl)
  exact ⟨⟨(h.nameWord w).named_lt hnamed, (t.nameWord_frame w).2.1 ▸ hcolumn⟩, hmax,
    beq_eq_false_iff_ne.mpr ((h.nameWord w).word hnamed).1⟩

theorem Bounded.setSlot (h : t.Bounded) {p : Place} {a : Atom} (hstands : t.Stands a p.bit) :
    (t.setSlot p a).Bounded where
  zero := h.zero
  word := h.word
  order := h.order
  steps := h.steps
  operations := h.operations
  sums := h.sums
  readers := h.readers
  named := h.named
  atoms b hb := by
    have hb : t.words.size ≤ b.word := hb
    have hword := hstands.word_lt
    have hne : p.bit ≠ b := by
      rintro rfl
      omega
    simp only [Topology.setSlot, Std.TreeMap.getElem?_insert, Std.LawfulEqCmp.compare_eq_iff_eq,
      if_neg hne]
    exact h.atoms b hb
  tracked {x q} hx := by
    simp only [Topology.setSlot, Std.TreeMap.getElem?_insert] at hx
    split at hx
    · next heq =>
      obtain rfl := Std.LawfulEqCmp.compare_eq_iff_eq.mp heq
      exact Option.some.inj hx ▸ hstands.mono (Nat.le_refl _) rfl
    · exact (h.tracked hx).mono (Nat.le_refl _) rfl

theorem Bounded.fill (h : t.Bounded) {b : Bit} {filled : List (Nat × Atom)}
    (hstands : ∀ x ∈ filled, t.Stands x.2 b) : (t.fill b filled).Bounded := by
  induction filled generalizing t with
  | nil => exact h
  | cons entry filled ih =>
    obtain ⟨hentry, hstands⟩ := List.forall_mem_cons.mp hstands
    exact ih (h.setSlot hentry) fun x hx => (hstands x hx).mono (Nat.le_refl _) rfl

theorem le_atomMax_of_consecutive {first : Int} {count : Nat} {atoms : List Atom}
    (h : consecutive first count = .ok atoms) : ∀ a ∈ atoms, a ≤ atomMax := by
  unfold consecutive at h
  split at h
  · next hrange =>
    obtain rfl := Except.ok.inj h
    intro a ha
    obtain ⟨i, hi, rfl⟩ := List.mem_map.mp ha
    have hi := List.mem_range.mp hi
    show first.toNat + i ≤ atomMax
    omega
  · cases h

theorem slotsFilled_bounds {role : Role} {round : Int} {column : Nat} {slot : Option Nat}
    {filled : List (Nat × Atom)}
    (h : t.slotsFilled name role round column slot value = .ok filled) :
    column < t.wordSize ∧ ∀ x ∈ filled, x.2 ≤ atomMax := by
  simp only [slotsFilled, bind, Except.bind, pure, Except.pure, throw, throwThe,
    MonadExceptOf.throw] at h
  split at h
  · cases h
  split at h
  · cases h
  next hcolumn =>
  refine ⟨Nat.lt_of_not_le hcolumn, ?_⟩
  split at h
  · split at h
    · cases h
    · split at h
      · cases h
      · next hatoms =>
        obtain rfl := Except.ok.inj h
        intro x hx
        obtain ⟨a, ha, rfl⟩ := List.mem_map.mp hx
        exact le_atomMax_of_consecutive hatoms a ha
  · split at h
    · cases h
    · next hatoms =>
      obtain rfl := Except.ok.inj h
      intro x hx
      obtain ⟨y, hy, rfl⟩ := List.mem_map.mp hx
      exact le_atomMax_of_consecutive hatoms y.1 (List.fst_mem_of_mem_zipIdx hy)

theorem Bounded.enter (h : t.Bounded) (henter : t.enter name value = .ok (.ok (), t'))
    (horder : t'.order = none) : t'.Bounded := by
  rcases parse_of_enter henter horder with hparse | ⟨role, round, column, slot, hparse⟩
  · obtain ⟨-, atoms, -, -, rfl⟩ := (enter_zero_iff hparse).mp henter
    exact ⟨⟨⟨h.zero, h.word⟩, h.order, h.steps, h.operations, h.sums, h.readers, h.named⟩,
      h.atoms, fun ha => (h.tracked ha).mono (Nat.le_refl _) rfl⟩
  · obtain ⟨-, filled, hfilled, -, -, rfl⟩ := (enter_bit_iff hparse).mp henter
    obtain ⟨hcolumn, hmax⟩ := slotsFilled_bounds hfilled
    exact (h.nameWord _).fill fun x hx => h.stands_nameWord _ hcolumn (hmax x hx)

end ShaDiff.Topology
